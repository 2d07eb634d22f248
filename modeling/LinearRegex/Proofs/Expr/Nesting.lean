import LinearRegex.Proofs.Expr.Steps

/-!
# How deep a pattern nests

The reader counts the groups and classes that it is in, and looks at the limit where it enters one.
The count is the number of groups that are open (`Parser.State.isLevel_of_leadsTo`), since every way
out of a group or a class takes off what the way in has added.  The limit has no other part in what
is read, so under a lower one the reader goes the same way until that is exceeded
(`Expr.parse_agreesUnlessDeep`).
-/

namespace LinearRegex

namespace Parser

/-- The first result is the second one, unless it is that the pattern nests too deeply. -/
def AgreesUnlessDeep {α : Type} (result result' : Except Fault α) : Prop :=
  result = result' ∨ ∃ fault, result = .error fault ∧ fault.kind = .nestingDepth

variable {o : ParserOptions} {s next : State} {n n' : Nat}

/-! ## The count -/

/-- Between two steps, the reader is in those groups that are open, and in no class. -/
def State.IsLevel (s : State) : Prop :=
  s.depth = s.groups.length

/-- A step keeps the count level with the groups that are open. -/
theorem State.IsLevel.move (hs : s.IsLevel) (h : s.Moves o next) : next.IsLevel := by
  cases h with
  | bar | skip | switch | item => exact hs
  | plain | group => exact congrArg (· + 1) hs
  | close hgroups _ =>
    have hlength := hs
    rw [State.IsLevel, hgroups, List.length_cons] at hlength
    exact Nat.sub_eq_of_eq_add hlength

/-- Wherever the reader comes to from the start of a pattern, it is in the groups that are open. -/
theorem State.isLevel_of_leadsTo {pattern : List Char}
    (h : (State.initial o.modes pattern).LeadsTo o s) : s.IsLevel := by
  refine h.keeps (Eq.refl 0) ?_
  intro s next hs hstep
  exact hs.move (State.moves_of_step hstep)

/-! ## Two limits -/

theorem AgreesUnlessDeep.refl {α : Type} (result : Except Fault α) :
    AgreesUnlessDeep result result :=
  Or.inl rfl

/-- What is entered under a limit can be entered under a higher one. -/
theorem State.enter_agreesUnlessDeep (hle : n ≤ n') (s : State) :
    AgreesUnlessDeep (s.enter { o with nestLimit := n }) (s.enter { o with nestLimit := n' }) := by
  unfold State.enter
  by_cases hdeep : n < s.depth + 1
  · right
    exact ⟨_, if_pos hdeep, rfl⟩
  · left
    have hfits : s.depth + 1 ≤ n' := Nat.le_trans (Nat.not_lt.mp hdeep) hle
    rw [if_neg hdeep, if_neg (Nat.not_lt.mpr hfits)]

theorem State.openGroup_agreesUnlessDeep (hle : n ≤ n') (s : State) (cur : Cursor) :
    AgreesUnlessDeep (s.openGroup { o with nestLimit := n } cur)
      (s.openGroup { o with nestLimit := n' } cur) := by
  rcases s.enter_agreesUnlessDeep (o := o) hle with hsame | ⟨fault, hfault, hdeep⟩
  · left
    rw [State.openGroup, hsame, State.openGroup]
  · right
    refine ⟨fault, ?_, hdeep⟩
    rw [State.openGroup, hfault]

theorem State.readBracket_agreesUnlessDeep (hle : n ≤ n') (s : State) (cur : Cursor) :
    AgreesUnlessDeep (s.readBracket { o with nestLimit := n } cur)
      (s.readBracket { o with nestLimit := n' } cur) := by
  rcases s.enter_agreesUnlessDeep (o := o) hle with hsame | ⟨fault, hfault, hdeep⟩
  · left
    rw [State.readBracket, hsame, State.readBracket]
  · right
    refine ⟨fault, ?_, hdeep⟩
    rw [State.readBracket, hfault]

/-- Only groups and classes look at the limit. -/
theorem State.read_agreesUnlessDeep (hle : n ≤ n') (s : State) (c : Char) (cur : Cursor) :
    AgreesUnlessDeep (s.read { o with nestLimit := n } c cur)
      (s.read { o with nestLimit := n' } c cur) := by
  unfold State.read
  split
  · exact .refl _
  · exact .refl _
  · exact s.openGroup_agreesUnlessDeep hle cur
  · exact s.readBracket_agreesUnlessDeep hle cur
  · exact .refl _
  · exact .refl _
  · exact .refl _
  · exact .refl _
  · exact .refl _
  · exact .refl _

theorem State.step_agreesUnlessDeep (hle : n ≤ n') (s : State) :
    AgreesUnlessDeep (s.step { o with nestLimit := n }) (s.step { o with nestLimit := n' }) := by
  unfold State.step
  split
  · next c cur hnext =>
    rcases s.read_agreesUnlessDeep (o := o) hle c cur with hsame | ⟨fault, hfault, hdeep⟩
    · left
      rw [hsame]
    · right
      refine ⟨fault, ?_, hdeep⟩
      rw [hfault]
  · exact .refl _

/-- Under a lower limit the reader takes the same steps, until one of them is too deep. -/
theorem State.run_agreesUnlessDeep (hle : n ≤ n') (s : State) :
    AgreesUnlessDeep (s.run { o with nestLimit := n }) (s.run { o with nestLimit := n' }) := by
  generalize ho : { o with nestLimit := n } = low
  fun_induction State.run low s with
  | case1 s fault hstep =>
    subst ho
    rcases s.step_agreesUnlessDeep (o := o) hle with hsame | ⟨fault', hfault, hdeep⟩
    · left
      exact (State.run_of_error (hsame.symm.trans hstep)).symm
    · right
      obtain rfl := Except.error.inj (hstep.symm.trans hfault)
      exact ⟨fault, rfl, hdeep⟩
  | case2 s e hstep =>
    subst ho
    rcases s.step_agreesUnlessDeep (o := o) hle with hsame | ⟨fault, hfault, -⟩
    · left
      exact (State.run_of_finished (hsame.symm.trans hstep)).symm
    · cases hstep.symm.trans hfault
  | case3 s next hstep ih =>
    subst ho
    rcases s.step_agreesUnlessDeep (o := o) hle with hsame | ⟨fault, hfault, -⟩
    · rw [State.run_of_next (hsame.symm.trans hstep)]
      exact ih
    · cases hstep.symm.trans hfault

end Parser

/-- Under a lower limit, a pattern stands for the same expression or has the same error, or it nests
too deeply. -/
theorem Expr.parse_agreesUnlessDeep {n n' : Nat} (hle : n ≤ n') (o : ParserOptions)
    (pattern : String) :
    parse { o with nestLimit := n } pattern = parse { o with nestLimit := n' } pattern ∨
      ∃ error, parse { o with nestLimit := n } pattern = .error error ∧
        error.kind = .nestingDepth := by
  have hrun := (Parser.State.initial o.modes pattern.toList).run_agreesUnlessDeep (o := o) hle
  rcases hrun with hsame | ⟨fault, hfault, hdeep⟩
  · left
    exact congrArg (Except.mapError (Fault.inPattern · pattern)) hsame
  · right
    exact ⟨fault.inPattern pattern,
      congrArg (Except.mapError (Fault.inPattern · pattern)) hfault, hdeep⟩

/-- What can be read under two limits is the same under both. -/
theorem Expr.eq_of_parse {n n' : Nat} {o : ParserOptions} {pattern : String} {e e' : Expr}
    (h : parse { o with nestLimit := n } pattern = .ok e)
    (h' : parse { o with nestLimit := n' } pattern = .ok e') : e = e' := by
  have hsame : ∀ {m m' : Nat} {x : Expr}, m ≤ m' → parse { o with nestLimit := m } pattern = .ok x →
      parse { o with nestLimit := m' } pattern = .ok x := by
    intro m m' x hle hx
    rcases parse_agreesUnlessDeep hle o pattern with heq | ⟨error, herror, -⟩
    · exact heq.symm.trans hx
    · cases hx.symm.trans herror
  rcases Nat.le_total n n' with hle | hle
  · exact Except.ok.inj ((hsame hle h).symm.trans h')
  · exact Except.ok.inj (h.symm.trans (hsame hle h'))

end LinearRegex
