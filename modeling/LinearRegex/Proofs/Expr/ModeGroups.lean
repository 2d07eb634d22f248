import LinearRegex.Proofs.Expr.Nesting
import LinearRegex.Proofs.Expr.Positions
import LinearRegex.Proofs.Expr.Within

/-!
# Modes that are switched in a pattern

Modes can be given beside a pattern, be switched at its start, as in `(?i)`, or be switched for a
group around it, as in `(?i:` and `)`.  After what is added in front, the reader is at the start of
the pattern, but it counts more bytes and is in one more group (`Parser.State.within`).  From there
every step is the one that it takes in the pattern alone (`Parser.State.Fits.step_within`), so it
comes to the same expression, and to the same errors if nothing has been added at the end
(`Expr.parse_switched`).
-/

namespace LinearRegex
namespace Parser

/-- The same group in a longer pattern, which has `k` bytes more before it. -/
def OpenGroup.shift (k : Nat) (g : OpenGroup) : OpenGroup :=
  { g with start := g.start + k }

/-- The same state within groups that are open around the pattern.  The longer pattern has `k` bytes
more before it, and at its end it closes these groups. -/
def State.within (k : Nat) (outer : List OpenGroup) (s : State) : State :=
  { s with
    cur := s.cur.within k outer.length
    depth := s.depth + outer.length
    groups := s.groups.map (OpenGroup.shift k) ++ outer }

/-- The options for a pattern around the one that is read.  It starts in the given modes and nests
deeper by `n`. -/
def around (modes : Modes) (n : Nat) (o : ParserOptions) : ParserOptions :=
  { o with modes := modes, nestLimit := o.nestLimit + n }

variable {o : ParserOptions} {s next t : State} {cur : Cursor} {e : Expr} {fault : Fault}
  {modes : Modes} {k : Nat} {outer : List OpenGroup}

/-! ## Items within groups -/

/-- What the reader comes to is the same within other groups. -/
abbrev CarriesState (k : Nat) (outer : List OpenGroup) :
    (result result' : Except Fault State) → Prop :=
  Carries (State.within k outer) k outer.length

/-- What is wrong where the reader stands is wrong there in the longer pattern, too. -/
theorem State.shift_fault (s : State) (kind : SyntaxErrorKind) (length : Nat) :
    (⟨kind, s.cur.pos, s.cur.pos + length⟩ : Fault).shift k =
      ⟨kind, (s.within k outer).cur.pos, (s.within k outer).cur.pos + length⟩ := by
  simp only [State.within, Cursor.within, Fault.shift, Nat.add_right_comm]

theorem State.carries_push (s : State) (e : Expr) (cur : Cursor) :
    CarriesState k outer (s.push e cur)
      ((s.within k outer).push e (cur.within k outer.length)) := by
  rw [State.push, State.push]
  have hquantify : CarriesRead k outer.length (quantify s.modes.swapGreed e cur)
      (quantify s.modes.swapGreed e (cur.within k outer.length)) := carries_quantify _ _
  rcases hquantify with ⟨read, h, h'⟩ | ⟨fault, h, h'⟩
  · rw [h, State.within, h']
    exact .ok _
  · rw [h]
    refine .error fun hn => ?_
    rw [State.within, h' hn]

/-- Without parentheses at the end, what is quoted is the same. -/
theorem State.carries_readQuoted (s : State) (cur : Cursor) :
    CarriesState k [] (s.readQuoted cur) ((s.within k []).readQuoted (cur.within k 0)) := by
  have hrest : (cur.within k 0).rest = cur.rest := List.append_nil _
  rw [State.readQuoted, State.readQuoted, hrest]
  dsimp only
  rw [Cursor.drop_within_zero]
  split
  · exact .ok _
  · exact State.carries_push _ _ _

theorem carries_readEscape {start n : Nat} :
    CarriesRead k n (readEscape o modes start cur)
      (readEscape o modes (start + k) (cur.within k n)) := by
  fun_cases readEscape o modes start cur with
  | case1 hnext =>
    refine .error fun hn => ?_
    subst hn
    simp only [readEscape, Cursor.next?_within_zero hnext, Cursor.finish_within_zero]
    rfl
  | case2 c mid hnext l hlook =>
    simp only [readEscape, Cursor.next?_within hnext, hlook]
    exact .ok _
  | case3 c mid hnext hlook hclass fault hread =>
    refine .error fun hn => ?_
    simp only [readEscape, Cursor.next?_within hnext, hlook, hclass, if_true,
      Escape.carries_readClass.of_error hread hn]
  | case4 c mid hnext hlook hclass named after hread =>
    simp only [readEscape, Cursor.next?_within hnext, hlook, hclass, if_true,
      Escape.carries_readClass.of_ok hread]
    exact .ok _
  | case5 c mid hnext hlook hclass fault hread =>
    refine .error fun hn => ?_
    simp only [readEscape, Cursor.next?_within hnext, hlook, hclass,
      Escape.carries_readChar.of_error hread hn]
    rfl
  | case6 c mid hnext hlook hclass d after hread =>
    simp only [readEscape, Cursor.next?_within hnext, hlook, hclass,
      Escape.carries_readChar.of_ok hread]
    exact .ok _

theorem State.carries_enter (s : State) :
    CarriesState k outer (s.enter o) ((s.within k outer).enter (around modes outer.length o)) := by
  have hdeep : (around modes outer.length o).nestLimit < (s.within k outer).depth + 1 ↔
      o.nestLimit < s.depth + 1 := by
    show o.nestLimit + outer.length < s.depth + outer.length + 1 ↔ o.nestLimit < s.depth + 1
    omega
  have hdepth : s.depth + outer.length + 1 = s.depth + 1 + outer.length := by
    omega
  simp only [State.enter, hdeep]
  split
  · exact .error fun _ => congrArg Except.error (State.shift_fault s _ 1).symm
  · simp only [State.within, hdepth]
    exact .ok { s with depth := s.depth + 1 }

theorem State.leave_within (h : 0 < s.depth) :
    (s.within k outer).leave = s.leave.within k outer := by
  have hdepth : s.depth + outer.length - 1 = s.depth - 1 + outer.length := by
    omega
  simp only [State.leave, State.within, hdepth]

theorem State.carries_openGroup (s : State) (cur : Cursor) :
    CarriesState k outer (s.openGroup o cur)
      ((s.within k outer).openGroup (around modes outer.length o)
        (cur.within k outer.length)) := by
  rw [State.openGroup, State.openGroup]
  have hcarries : CarriesState k outer (s.enter o)
      ((s.within k outer).enter (around modes outer.length o)) := State.carries_enter s
  rcases hcarries with ⟨inside, henter, henter'⟩ | ⟨fault, henter, henter'⟩
  · rw [henter, henter']
    dsimp only
    have hread : CarriesRead k outer.length
        (Group.readOpening inside.modes inside.names inside.cur.pos cur)
        (Group.readOpening (inside.within k outer).modes (inside.within k outer).names
          (inside.within k outer).cur.pos (cur.within k outer.length)) :=
      Group.carries_readOpening
    rcases hread with ⟨⟨opening, after⟩, h, h'⟩ | ⟨fault, h, h'⟩
    · rw [h, h']
      cases opening with
      | capture name => exact .ok _
      | plain switched => exact .ok _
      | modes switched =>
        obtain ⟨-, rfl⟩ := State.enter_eq_ok henter
        dsimp only [Prod.map_apply, id_eq]
        rw [State.leave_within (Nat.zero_lt_succ _)]
        exact .ok _
    · rw [h]
      exact .error fun hn => by rw [h' hn]
  · rw [henter]
    exact .error fun hn => by rw [henter' hn]

theorem State.IsLevel.carries_closeGroup (hs : s.IsLevel) (cur : Cursor) :
    CarriesState k outer (s.closeGroup cur)
      ((s.within k outer).closeGroup (cur.within k outer.length)) := by
  unfold State.closeGroup
  cases hgroups : s.groups with
  | nil =>
    refine .error fun hn => ?_
    have hgroups' : (s.within k outer).groups = [] := by
      rw [State.within, hgroups, List.eq_nil_of_length_eq_zero hn]
      rfl
    rw [hgroups']
    exact congrArg Except.error (State.shift_fault s _ 1).symm
  | cons g groups =>
    have hgroups' : (s.within k outer).groups =
        g.shift k :: (groups.map (OpenGroup.shift k) ++ outer) := by
      rw [State.within, hgroups]
      rfl
    have hdepth : 0 < s.depth := by
      rw [hs, hgroups]
      exact Nat.zero_lt_succ _
    rw [hgroups']
    dsimp only
    rw [State.leave_within hdepth]
    exact State.carries_push _ _ _

theorem State.carries_readBracket (s : State) (cur : Cursor) :
    CarriesState k outer (s.readBracket o cur)
      ((s.within k outer).readBracket (around modes outer.length o)
        (cur.within k outer.length)) := by
  rw [State.readBracket, State.readBracket]
  have hcarries : CarriesState k outer (s.enter o)
      ((s.within k outer).enter (around modes outer.length o)) := State.carries_enter s
  rcases hcarries with ⟨inside, henter, henter'⟩ | ⟨fault, henter, henter'⟩
  · rw [henter, henter']
    dsimp only
    have hread : CarriesRead k outer.length
        (Bracket.readClass o.unicodeClasses inside.modes.ignoreCase inside.cur.pos cur)
        (Bracket.readClass (around modes outer.length o).unicodeClasses
          (inside.within k outer).modes.ignoreCase
          (inside.within k outer).cur.pos (cur.within k outer.length)) :=
      Bracket.carries_readClass
    rcases hread with ⟨⟨c, after⟩, h, h'⟩ | ⟨fault, h, h'⟩
    · rw [h, h']
      obtain ⟨-, rfl⟩ := State.enter_eq_ok henter
      dsimp only [Prod.map_apply, id_eq]
      rw [State.leave_within (Nat.zero_lt_succ _)]
      exact State.carries_push _ _ _
    · rw [h]
      exact .error fun hn => by rw [h' hn]
  · rw [henter]
    exact .error fun hn => by rw [henter' hn]

/-- What a backslash begins is an escape, if it is no quotation. -/
theorem State.readBackslash_of_ne (hne : ∀ mid, cur.next? ≠ some ('Q', mid)) :
    s.readBackslash o cur =
      match readEscape o s.modes s.cur.pos cur with
      | .error fault => .error fault
      | .ok (e, after) => s.push e after := by
  rw [State.readBackslash]
  split
  · next hnext => exact absurd hnext (hne _)
  · rfl

/-- A quotation goes on to the end, so parentheses there would belong to it. -/
theorem State.carries_readBackslash (s : State)
    (hquote : outer = [] ∨ ∀ mid, cur.next? ≠ some ('Q', mid)) :
    CarriesState k outer (s.readBackslash o cur)
      ((s.within k outer).readBackslash (around modes outer.length o)
        (cur.within k outer.length)) := by
  by_cases hQ : ∃ mid, cur.next? = some ('Q', mid)
  · obtain ⟨mid, hnext⟩ := hQ
    obtain rfl : outer = [] := hquote.resolve_right fun hne => hne mid hnext
    simp only [State.readBackslash, hnext, Cursor.next?_within hnext]
    exact State.carries_readQuoted s mid
  · have hne : ∀ mid, cur.next? ≠ some ('Q', mid) := fun mid hnext => hQ ⟨mid, hnext⟩
    rw [State.readBackslash_of_ne hne,
      State.readBackslash_of_ne (Cursor.next?_within_ne (by decide) hne)]
    have hread : CarriesRead k outer.length (readEscape o s.modes s.cur.pos cur)
        (readEscape (around modes outer.length o) (s.within k outer).modes
          (s.within k outer).cur.pos (cur.within k outer.length)) :=
      carries_readEscape
    rcases hread with ⟨⟨e, after⟩, h, h'⟩ | ⟨fault, h, h'⟩
    · rw [h, h']
      exact State.carries_push _ _ _
    · rw [h]
      exact .error fun hn => by rw [h' hn]

theorem State.carries_readBrace (s : State) (cur : Cursor) :
    CarriesState k outer (s.readBrace cur)
      ((s.within k outer).readBrace (cur.within k outer.length)) := by
  have hscan : scanCount? (s.within k outer).cur.rest = scanCount? s.cur.rest :=
    scanCount?_append_close
  rw [State.readBrace, State.readBrace, hscan]
  split
  · exact .error fun _ => congrArg Except.error (State.shift_fault s _ _).symm
  · exact State.carries_push _ _ _

/-- Whatever comes next, it is read in the same way. -/
theorem State.IsLevel.carries_read (hs : s.IsLevel) {c : Char}
    (hquote : outer = [] ∨ (c = '\\' → ∀ mid, cur.next? ≠ some ('Q', mid))) :
    CarriesState k outer (s.read o c cur)
      ((s.within k outer).read (around modes outer.length o) c (cur.within k outer.length)) := by
  unfold State.read
  split
  · exact .ok _
  · exact hs.carries_closeGroup cur
  · exact State.carries_openGroup s cur
  · exact State.carries_readBracket s cur
  · exact State.carries_readBackslash s (hquote.imp_right fun h => h rfl)
  · exact State.carries_readBrace s cur
  · exact State.carries_push _ _ _
  · exact State.carries_push _ _ _
  · exact State.carries_push _ _ _
  · split
    · exact .error fun _ => congrArg Except.error (State.shift_fault s _ 1).symm
    · exact State.carries_push _ _ _

/-! ## Steps -/

/-- A state that can be read on from in the same way within the groups: they are not taken for
text that is quoted. -/
structure State.Fits (outer : List OpenGroup) (s : State) : Prop where
  level : s.IsLevel
  unquoted : outer = [] ∨ ¬['\\', 'Q'] <:+: s.cur.rest

theorem State.fits_nil (hs : s.IsLevel) : s.Fits [] :=
  ⟨hs, Or.inl rfl⟩

theorem State.Fits.step (hs : s.Fits outer) (h : s.step o = .ok (.next next)) :
    next.Fits outer := by
  refine ⟨hs.level.move (State.moves_of_step h), hs.unquoted.imp_right fun hquote hnext => ?_⟩
  obtain ⟨m, hm⟩ := (passes_step h).reaches
  rw [hm, Cursor.drop] at hnext
  exact hquote (hnext.trans (List.drop_suffix m _).isInfix)

/-- What comes next is read in the same way. -/
theorem State.Fits.carries_read (hs : s.Fits outer) {c : Char}
    (hnext : s.cur.next? = some (c, cur)) :
    CarriesState k outer (s.read o c cur)
      ((s.within k outer).read (around modes outer.length o) c (cur.within k outer.length)) := by
  refine hs.level.carries_read (hs.unquoted.imp_right ?_)
  rintro hquote rfl mid hmid
  obtain ⟨-, hrest⟩ := Cursor.next?_eq_some hnext
  obtain ⟨-, hrest'⟩ := Cursor.next?_eq_some hmid
  refine hquote ⟨[], mid.rest, ?_⟩
  rw [hrest, hrest']
  rfl

theorem State.Fits.step_within (hs : s.Fits outer) (h : s.step o = .ok (.next next)) :
    (s.within k outer).step (around modes outer.length o) =
      .ok (.next (next.within k outer)) := by
  unfold State.step at h
  split at h
  · next c cur hnext =>
    split at h
    · cases h
    · next hread =>
      cases h
      exact State.step_of_read (Cursor.next?_within hnext) ((hs.carries_read hnext).of_ok hread)
  · split at h <;> cases h

/-- Wherever reading leads to, it leads to within other groups. -/
theorem State.Fits.leadsTo_within (hs : s.Fits outer) (h : s.LeadsTo o t) :
    t.Fits outer ∧
      (s.within k outer).LeadsTo (around modes outer.length o) (t.within k outer) := by
  induction h with
  | refl => exact ⟨hs, .refl⟩
  | tail _ hstep ih =>
    obtain ⟨ht, hleads⟩ := ih
    exact ⟨ht.step hstep, hleads.tail (ht.step_within hstep)⟩

theorem State.IsLevel.step_within_error (hs : s.IsLevel) (h : s.step o = .error fault) :
    (s.within k []).step (around modes 0 o) = .error (fault.shift k) := by
  unfold State.step at h
  split at h
  · next c cur hnext =>
    split at h
    · next hread =>
      cases h
      have hread' : (s.within k []).read (around modes 0 o) c (cur.within k 0) =
          .error (fault.shift k) :=
        ((State.fits_nil hs).carries_read hnext).of_error hread rfl
      have hnext' : (s.within k []).cur.next? = some (c, cur.within k 0) :=
        Cursor.next?_within hnext
      rw [State.step, hnext']
      dsimp only
      rw [hread']
    · cases h
  · next hnext =>
    split at h
    · cases h
    · next g groups hgroups =>
      cases h
      have hnext' : (s.within k []).cur.next? = none := Cursor.next?_within_zero hnext
      rw [State.step, hnext', State.within, hgroups]
      rfl

theorem State.step_within_finished (h : s.step o = .ok (.finished e)) :
    (s.within k []).step (around modes 0 o) = .ok (.finished e) := by
  obtain ⟨hnext, hgroups, rfl⟩ := State.eq_body_of_step h
  have hnext' : (s.within k []).cur.next? = none := Cursor.next?_within_zero hnext
  rw [State.step, hnext', State.within, hgroups]
  rfl

/-- With bytes before it and nothing behind it, a pattern is read in the same way to its end, and
its faults are those that it has by itself. -/
theorem State.IsLevel.run_within (hs : s.IsLevel) :
    (s.within k []).run (around modes 0 o) = (s.run o).mapError (Fault.shift k) := by
  fun_induction State.run o s with
  | case1 s fault hstep =>
    rw [State.run_of_error (hs.step_within_error hstep)]
    rfl
  | case2 s e hstep =>
    rw [State.run_of_finished (State.step_within_finished hstep)]
    rfl
  | case3 s next hstep ih =>
    have hfits := State.fits_nil hs
    have hstep' : (s.within k []).step (around modes 0 o) = .ok (.next (next.within k [])) :=
      hfits.step_within hstep
    rw [State.run_of_next hstep']
    exact ih (hfits.step hstep).level

/-- A pattern that can be read is read in the same way in a group around it, which is closed behind
it. -/
theorem State.Fits.run_within {g : OpenGroup} (hs : s.Fits [g]) (h : s.run o = .ok e) :
    (s.within k [g]).run (around modes 1 o) =
      .ok (alternationOf (concatOf (g.close e :: g.items) :: g.branches)) := by
  obtain ⟨t, hst, hstep⟩ := State.exists_of_run_eq_ok h
  have hleads : (s.within k [g]).LeadsTo (around modes 1 o) (t.within k [g]) :=
    (hs.leadsTo_within hst).2
  obtain ⟨hnext, hgroups, rfl⟩ := State.eq_body_of_step hstep
  have hrest := Cursor.next?_eq_none_iff.mp hnext
  have hclose : (t.within k [g]).step (around modes 1 o) = .ok (.next
      { t with
        cur := ⟨[], t.cur.pos + k + 1⟩
        modes := g.modes
        groups := []
        branches := g.branches
        items := g.close t.body :: g.items }) := by
    have hparen : (t.within k [g]).cur.next? = some (')', ⟨[], t.cur.pos + k + 1⟩) := by
      rw [State.within, Cursor.within, hrest]
      rfl
    refine State.step_of_read hparen ?_
    rw [State.read, State.closeGroup, State.within, hgroups]
    rfl
  rw [hleads.run_eq, State.run_of_next hclose]
  exact State.run_of_finished rfl

end Parser

/-! ## Switching modes -/

/-- The letters of the modes. -/
def Modes.letters : List Char :=
  ['i', 's', 'm', 'U']

theorem Modes.mem_letters_iff {c : Char} :
    c ∈ letters ↔ c = 'i' ∨ c = 's' ∨ c = 'm' ∨ c = 'U' := by
  simp [letters]

/-- The modes with those in addition that have the given letters. -/
def Modes.turnOn (letters : List Char) (m : Modes) : Modes where
  ignoreCase := m.ignoreCase || letters.contains 'i'
  dotAll := m.dotAll || letters.contains 's'
  multiLine := m.multiLine || letters.contains 'm'
  swapGreed := m.swapGreed || letters.contains 'U'

theorem Modes.turnOn_nil (m : Modes) : m.turnOn [] = m := by
  simp [turnOn]

/-- Letters are switched on one after the other. -/
theorem Modes.exists_switch? {c : Char} (hc : c ∈ letters) (cs : List Char) (m : Modes) :
    ∃ switched, m.switch? c true = some switched ∧ switched.turnOn cs = m.turnOn (c :: cs) := by
  rcases mem_letters_iff.mp hc with rfl | rfl | rfl | rfl
  · exact ⟨_, rfl, by simp [turnOn]⟩
  · exact ⟨_, rfl, by simp [turnOn]⟩
  · exact ⟨_, rfl, by simp [turnOn]⟩
  · exact ⟨_, rfl, by simp [turnOn]⟩

namespace Group

variable {m : Modes} {letters rest : List Char} {start pos : Nat}

theorem readModes_of_letters (hletters : letters ⊆ Modes.letters) (seen : Bool) :
    readModes start m false seen ⟨letters ++ rest, pos⟩ =
      readModes start (m.turnOn letters) false (seen || letters ≠ [])
        ⟨rest, pos + Utf8.length letters⟩ := by
  induction letters generalizing m seen pos with
  | nil => simp [Modes.turnOn_nil]
  | cons c cs ih =>
    obtain ⟨hc, hcs⟩ := List.cons_subset.mp hletters
    obtain ⟨switched, hswitch, hturn⟩ := Modes.exists_switch? hc cs m
    have hnext : (⟨c :: (cs ++ rest), pos⟩ : Cursor).next? =
        some (c, ⟨cs ++ rest, pos + c.utf8Size⟩) := rfl
    rw [List.cons_append, readModes_of_next hnext, Bool.not_false, hswitch]
    dsimp only
    rw [ih hcs, hturn, Utf8.length_cons, Nat.add_assoc]
    simp

/-- No name begins with the letter of a mode. -/
theorem nameMark?_of_letters (hletters : letters ⊆ Modes.letters) (hne : letters ≠ []) :
    nameMark? (letters ++ rest) = none := by
  obtain ⟨c, cs, rfl⟩ := List.exists_cons_of_ne_nil hne
  rcases Modes.mem_letters_iff.mp (hletters List.mem_cons_self) with rfl | rfl | rfl | rfl <;> rfl

theorem readOpening_of_letters {taken : List String} (hletters : letters ⊆ Modes.letters)
    (hne : letters ≠ []) :
    readOpening m taken start ⟨'?' :: (letters ++ rest), pos⟩ =
      readModes start (m.turnOn letters) false true
        ⟨rest, pos + Utf8.length ('?' :: letters)⟩ := by
  have hnext : (⟨'?' :: (letters ++ rest), pos⟩ : Cursor).next? =
      some ('?', ⟨letters ++ rest, pos + '?'.utf8Size⟩) := rfl
  simp only [readOpening, hnext, nameMark?_of_letters hletters hne]
  rw [readModes_of_letters hletters, decide_eq_true hne, Utf8.length_cons, Nat.add_assoc]
  rfl

/-- Letters and a closing parenthesis switch modes. -/
theorem readOpening_close {taken : List String} (hletters : letters ⊆ Modes.letters)
    (hne : letters ≠ []) :
    readOpening m taken start ⟨'?' :: (letters ++ ')' :: rest), pos⟩ =
      .ok (.modes (m.turnOn letters), ⟨rest, pos + Utf8.length ('?' :: (letters ++ [')']))⟩) := by
  rw [readOpening_of_letters hletters hne, readModes_of_next (c := ')') rfl, ← List.cons_append,
    Utf8.length_append, ← Nat.add_assoc]
  rfl

/-- Letters and a colon begin a group. -/
theorem readOpening_colon {taken : List String} (hletters : letters ⊆ Modes.letters)
    (hne : letters ≠ []) :
    readOpening m taken start ⟨'?' :: (letters ++ ':' :: rest), pos⟩ =
      .ok (.plain (m.turnOn letters), ⟨rest, pos + Utf8.length ('?' :: (letters ++ [':']))⟩) := by
  rw [readOpening_of_letters hletters hne, readModes_of_next (c := ':') rfl, ← List.cons_append,
    Utf8.length_append, ← Nat.add_assoc]
  rfl

end Group

namespace Parser

variable {o : ParserOptions} {m : Modes} {letters rest : List Char}

/-- Behind letters and a closing parenthesis, the reader is at the start of a pattern that begins in
other modes. -/
theorem State.step_of_close (hletters : letters ⊆ Modes.letters) (hne : letters ≠ [])
    (hlimit : 1 ≤ o.nestLimit) :
    (State.initial m ('(' :: '?' :: (letters ++ ')' :: rest))).step o =
      .ok (.next ((State.initial (m.turnOn letters) rest).within
        (Utf8.length ('(' :: '?' :: (letters ++ [')']))) [])) := by
  have hfits : ¬o.nestLimit < 0 + 1 := Nat.not_lt.mpr hlimit
  have hcur : (⟨rest, 0 + '('.utf8Size + Utf8.length ('?' :: (letters ++ [')']))⟩ : Cursor) =
      (Cursor.start rest).within (Utf8.length ('(' :: '?' :: (letters ++ [')']))) 0 := by
    rw [Cursor.within_zero, Nat.add_assoc]
    rfl
  refine State.step_of_read (c := '(') rfl ?_
  simp only [State.read, State.openGroup, State.enter, State.initial, hfits, if_false,
    Cursor.start, Group.readOpening_close hletters hne]
  rw [hcur]
  rfl

/-- Behind letters and a colon, the reader is at the start of a pattern within a group. -/
theorem State.step_of_colon (hletters : letters ⊆ Modes.letters) (hne : letters ≠ [])
    (hlimit : 1 ≤ o.nestLimit) :
    (State.initial m ('(' :: '?' :: (letters ++ ':' :: (rest ++ [')'])))).step o =
      .ok (.next ((State.initial (m.turnOn letters) rest).within
        (Utf8.length ('(' :: '?' :: (letters ++ [':']))) [⟨0, none, m, [], []⟩])) := by
  have hfits : ¬o.nestLimit < 0 + 1 := Nat.not_lt.mpr hlimit
  have hcur : (⟨rest ++ [')'], 0 + '('.utf8Size + Utf8.length ('?' :: (letters ++ [':']))⟩ :
      Cursor) = (Cursor.start rest).within (Utf8.length ('(' :: '?' :: (letters ++ [':']))) 1 := by
    rw [Nat.add_assoc]
    rfl
  refine State.step_of_read (c := '(') rfl ?_
  simp only [State.read, State.openGroup, State.enter, State.initial, hfits, if_false,
    Cursor.start, Group.readOpening_colon hletters hne]
  rw [hcur]
  rfl

theorem concatOf_singleton (e : Expr) : concatOf [e] = e := by
  cases e <;> rfl

end Parser

/-- The same error in a longer pattern, which has `k` bytes more before it. -/
def SyntaxError.shift (k : Nat) (error : SyntaxError) : SyntaxError :=
  { error with toFault := error.toFault.shift k }

/-- The text that a fault is about is shown with it in a longer pattern, too. -/
theorem Fault.LiesBehind.inPattern_shift {pattern : String} {fault : Fault}
    (h : fault.LiesBehind (Cursor.start pattern.toList)) (added : String) :
    (fault.shift added.utf8ByteSize).inPattern (added ++ pattern) =
      (fault.inPattern pattern).shift added.utf8ByteSize := by
  obtain ⟨text, hoccurs, hstop⟩ := h.exists_occursAt
  have hstop' : (fault.shift added.utf8ByteSize).stop =
      (fault.shift added.utf8ByteSize).start + text.utf8ByteSize := by
    rw [Fault.shift, hstop, Nat.add_right_comm]
  rw [Fault.inPattern_of_occursAt hoccurs hstop,
    Fault.inPattern_of_occursAt (hoccurs.append_left added) hstop']
  rfl

namespace Expr

variable {o : ParserOptions} {pattern : String} {letters : List Char}

/-- If what is added before a pattern leaves its reading as it is, then only the positions of errors
change. -/
theorem parse_append_of_run {o o' : ParserOptions} {added : String}
    (hrun : (Parser.State.initial o.modes (added ++ pattern).toList).run o =
      ((Parser.State.initial o'.modes pattern.toList).run o').mapError
        (.shift added.utf8ByteSize)) :
    parse o (added ++ pattern) = (parse o' pattern).mapError (.shift added.utf8ByteSize) := by
  rw [parse, hrun, parse]
  cases hinner : (Parser.State.initial o'.modes pattern.toList).run o' with
  | ok e => rfl
  | error fault =>
    have hbehind := Parser.State.liesBehind_of_run (Parser.State.standsBehind_initial _ _) hinner
    exact congrArg Except.error (hbehind.inPattern_shift added)

/-- Modes that are switched at the start of a pattern are as good as modes that it is read in. -/
theorem parse_of_close (hletters : letters ⊆ Modes.letters) (hne : letters ≠ [])
    (hlimit : 1 ≤ o.nestLimit) :
    parse o ("(?" ++ .ofList letters ++ ")" ++ pattern) =
      (parse { o with modes := o.modes.turnOn letters } pattern).mapError
        (.shift ("(?" ++ String.ofList letters ++ ")").utf8ByteSize) := by
  have hlist : ("(?" ++ String.ofList letters ++ ")" ++ pattern).toList =
      '(' :: '?' :: (letters ++ ')' :: pattern.toList) := by
    simp [String.toList_append]
  have hadded : "(?" ++ String.ofList letters ++ ")" =
      .ofList ('(' :: '?' :: (letters ++ [')'])) := by
    apply String.toList_injective
    simp [String.toList_append]
  have hlevel : (Parser.State.initial (o.modes.turnOn letters) pattern.toList).IsLevel := rfl
  apply parse_append_of_run
  rw [hlist, hadded, utf8ByteSize_ofList,
    Parser.State.run_of_next (Parser.State.step_of_close hletters hne hlimit)]
  exact hlevel.run_within (o := { o with modes := o.modes.turnOn letters })

/-- So are modes of a group around the pattern, which is entered in addition. -/
theorem parse_of_colon {n : Nat} {e : Expr} (hletters : letters ⊆ Modes.letters)
    (hne : letters ≠ []) (hquote : ¬"\\Q".toList <:+: pattern.toList)
    (hparse : parse { o with modes := o.modes.turnOn letters, nestLimit := n } pattern = .ok e) :
    parse { o with nestLimit := n + 1 } ("(?" ++ .ofList letters ++ ":" ++ pattern ++ ")") =
      .ok e := by
  have hlist : ("(?" ++ String.ofList letters ++ ":" ++ pattern ++ ")").toList =
      '(' :: '?' :: (letters ++ ':' :: (pattern.toList ++ [')'])) := by
    simp [String.toList_append]
  have hfits : (Parser.State.initial (o.modes.turnOn letters) pattern.toList).Fits
      [⟨0, none, o.modes, [], []⟩] := ⟨rfl, Or.inr hquote⟩
  have hlimit : 1 ≤ ({ o with nestLimit := n + 1 } : ParserOptions).nestLimit := Nat.le_add_left 1 n
  have hrun : (Parser.State.initial o.modes
      ("(?" ++ String.ofList letters ++ ":" ++ pattern ++ ")").toList).run
        { o with nestLimit := n + 1 } = .ok e := by
    rw [hlist, Parser.State.run_of_next (Parser.State.step_of_colon hletters hne hlimit)]
    refine (hfits.run_within (run_of_parse hparse)).trans ?_
    exact congrArg Except.ok (Parser.concatOf_singleton e)
  rw [parse, hrun]
  rfl

/-- Modes can be given beside a pattern, switched at its start, or switched for a group around it,
if the pattern has no quotation to which the end of the group would belong. -/
theorem parse_switched (o : ParserOptions) (pattern : String) {letters : List Char}
    (hletters : letters ⊆ Modes.letters) (hne : letters ≠ []) :
    (1 ≤ o.nestLimit →
      parse o ("(?" ++ .ofList letters ++ ")" ++ pattern) =
        (parse { o with modes := o.modes.turnOn letters } pattern).mapError
          (.shift ("(?" ++ String.ofList letters ++ ")").utf8ByteSize)) ∧
    ∀ n e, ¬"\\Q".toList <:+: pattern.toList →
      parse { o with modes := o.modes.turnOn letters, nestLimit := n } pattern = .ok e →
      parse { o with nestLimit := n + 1 } ("(?" ++ .ofList letters ++ ":" ++ pattern ++ ")") =
        .ok e :=
  ⟨parse_of_close hletters hne, fun _ _ => parse_of_colon hletters hne⟩

/-- A parenthesis that closes nothing, and a character that ignores case. -/
theorem parse_switched_ignoringCase :
    parse {} "(?i)k)" = .error ⟨⟨.unexpectedParen, 5, 6⟩, ")"⟩ ∧
      parse {} "(?i:k)" = .ok (.literal ['k'] true) := by
  have hletters : ['i'] ⊆ Modes.letters := by decide
  have hrun : (Parser.State.initial { ignoreCase := true } "k)".toList).run
      { modes := { ignoreCase := true } } = .error ⟨.unexpectedParen, 1, 2⟩ :=
    (Parser.State.run_of_next rfl).trans (Parser.State.run_of_error rfl)
  have hshown : (⟨.unexpectedParen, 1, 2⟩ : Fault).inPattern "k)" =
      ⟨⟨.unexpectedParen, 1, 2⟩, ")"⟩ :=
    Fault.inPattern_of_occursAt ⟨"k", "", rfl, rfl⟩ rfl
  have hfault : parse { modes := { ignoreCase := true } } "k)" =
      .error ⟨⟨.unexpectedParen, 1, 2⟩, ")"⟩ := by
    rw [parse, hrun, ← hshown]
    rfl
  have hrun' : (Parser.State.initial { ignoreCase := true } "k".toList).run
      { modes := { ignoreCase := true }, nestLimit := 999 } = .ok (.literal ['k'] true) :=
    (Parser.State.run_of_next rfl).trans (Parser.State.run_of_finished rfl)
  have hparse : parse { modes := { ignoreCase := true }, nestLimit := 999 } "k" =
      .ok (.literal ['k'] true) := by
    rw [parse, hrun']
    rfl
  obtain ⟨hclose, -⟩ := parse_switched {} "k)" hletters (List.cons_ne_nil _ _)
  obtain ⟨-, hcolon⟩ := parse_switched {} "k" hletters (List.cons_ne_nil _ _)
  constructor
  · exact (hclose (by decide)).trans (congrArg (Except.mapError _) hfault)
  · exact hcolon 999 _ (by decide) hparse

end Expr

end LinearRegex
