import LinearRegex.Proofs.Expr.Counts
import LinearRegex.Proofs.Expr.Steps

/-!
# Where faults are

A reader that refuses what it reads says where that begins and ends.  It begins where the reader
stands or, if the reader has been called by another one, where that one has begun; and it ends
further on, at a position that is reached from there (`Cursor.Began`).  Where the end is computed by
counting instead, all characters that are counted are ASCII.  So whatever is wrong with a pattern
lies between two positions of it, with at least one character between them
(`Parser.State.liesBehind_of_run`).
-/

namespace LinearRegex

namespace Cursor

variable {a b cur after : Cursor} {start : Nat}

/-- Reading on from `a` comes by the offset `start`, and then by at least one character to `cur`. -/
def Began (a : Cursor) (start : Nat) (cur : Cursor) : Prop :=
  ∃ b, a.Reaches b ∧ b.Passes cur ∧ b.pos = start

theorem Began.reaches (h : a.Began start cur) : a.Reaches cur := by
  obtain ⟨b, hreach, hpass, -⟩ := h
  exact hreach.trans hpass.reaches

theorem Began.trans (h : a.Began start cur) (hreach : cur.Reaches after) :
    a.Began start after := by
  obtain ⟨b, hb, hpass, hstart⟩ := h
  exact ⟨b, hb, hpass.trans hreach, hstart⟩

theorem Reaches.began (h : a.Reaches b) (hpass : b.Passes cur) : a.Began b.pos cur :=
  ⟨b, h, hpass, rfl⟩

end Cursor

/-- What is wrong lies between two positions behind `a`, with at least one character between
them. -/
def Fault.LiesBehind (a : Cursor) (fault : Fault) : Prop :=
  ∃ cur, a.Began fault.start cur ∧ cur.pos = fault.stop

variable {a cur mid after : Cursor} {start : Nat} {fault : Fault} {kind : SyntaxErrorKind}

theorem Cursor.Began.liesBehind (h : a.Began start cur) :
    Fault.LiesBehind a ⟨kind, start, cur.pos⟩ :=
  ⟨cur, h, rfl⟩

/-! ## Quantifiers -/

theorem passes_of_scanCount? {count : Count} (h : scanCount? cur.rest = some count) :
    cur.Passes (cur.drop count.length) ∧ (cur.drop count.length).pos = cur.pos + count.length := by
  obtain ⟨t, ⟨rest, hrest⟩, rfl⟩ := scanCount?_eq_some_iff.mp h
  have hne : t.text ≠ [] := List.cons_ne_nil _ _
  exact ⟨Cursor.passes_drop hrest.symm hne,
    Cursor.pos_drop_of_ascii hrest.symm t.utf8Size_of_mem_text⟩

theorem passes_of_lazyMark {min : Nat} {max : Option Nat} {q : Quantifier}
    (hmid : cur.Passes mid)
    (h : (Except.ok (some (lazyMark min max mid)) : Except Fault _) = .ok (some (q, after))) :
    cur.Passes after := 
  hmid.trans (reaches_of_lazyMark (.refl mid) h)

/-- A quantifier has at least one character. -/
theorem passes_readQuantifier {q : Quantifier} (h : readQuantifier cur = .ok (some (q, after))) :
    cur.Passes after := by
  unfold readQuantifier at h
  split at h
  · next hnext => exact passes_of_lazyMark (Cursor.passes_next hnext) h
  · next hnext => exact passes_of_lazyMark (Cursor.passes_next hnext) h
  · next hnext => exact passes_of_lazyMark (Cursor.passes_next hnext) h
  · split at h
    · cases h
    · next hcount =>
      dsimp only at h
      split at h
      · exact passes_of_lazyMark (passes_of_scanCount? hcount).1 h
      · cases h

theorem liesBehind_of_readQuantifier (hcur : a.Reaches cur)
    (h : readQuantifier cur = .error fault) : fault.LiesBehind a := by
  unfold readQuantifier at h
  split at h
  · cases h
  · cases h
  · cases h
  · split at h
    · cases h
    · next hcount =>
      dsimp only at h
      split at h
      · cases h
      · cases h
        exact (hcur.began (passes_of_scanCount? hcount).1).liesBehind

theorem liesBehind_of_quantify {swapGreed : Bool} {e : Expr} (hcur : a.Reaches cur)
    (h : quantify swapGreed e cur = .error fault) : fault.LiesBehind a := by
  unfold quantify at h
  split at h
  · next hread =>
    cases h
    exact liesBehind_of_readQuantifier hcur hread
  · cases h
  · next hread =>
    have hpass := passes_readQuantifier hread
    split at h
    · next hagain =>
      cases h
      exact liesBehind_of_readQuantifier (hcur.trans hpass.reaches) hagain
    · cases h
    · next hagain =>
      cases h
      exact ((hcur.began hpass).trans (reaches_readQuantifier hagain)).liesBehind

/-! ## Escapes -/

namespace Escape

theorem reaches_hexDigits (cur : Cursor) : cur.Reaches (hexDigits cur).2 := by
  unfold hexDigits
  split
  · next hnext =>
    split
    · next huntil => exact (Cursor.reaches_next hnext).trans (Cursor.reaches_until huntil)
    · exact cur.reaches_finish
  · split <;> exact Cursor.reaches_drop 2 cur

theorem liesBehind_of_readChar (hstart : a.Began start cur)
    (h : readChar start cur = .error fault) : fault.LiesBehind a := by
  unfold readChar at h
  split at h
  · cases h
    exact (hstart.trans cur.reaches_finish).liesBehind
  · next c mid hnext =>
    have hmid := hstart.trans (Cursor.reaches_next hnext)
    split at h
    · cases h
    · dsimp only at h
      split at h
      · split at h
        · cases h
        · cases h
          exact hmid.liesBehind
      · split at h
        · split at h
          · cases h
          · cases h
            exact (hmid.trans (reaches_hexDigits mid)).liesBehind
        · split at h
          · cases h
          · cases h
            exact hmid.liesBehind

theorem liesBehind_of_readPropertyName (hstart : a.Began start cur)
    (h : readPropertyName start cur = .error fault) : fault.LiesBehind a := by
  unfold readPropertyName at h
  split at h
  · cases h
    exact (hstart.trans cur.reaches_finish).liesBehind
  · split at h
    · cases h
      exact (hstart.trans cur.reaches_finish).liesBehind
    · cases h
  · cases h

theorem liesBehind_of_readClass {unicodeClasses fold : Bool} (hstart : a.Began start cur)
    (h : readClass unicodeClasses fold start cur = .error fault) : fault.LiesBehind a := by
  unfold readClass at h
  split at h
  · cases h
    exact (hstart.trans cur.reaches_finish).liesBehind
  · next c mid hnext =>
    have hmid := hstart.trans (Cursor.reaches_next hnext)
    split at h
    · cases h
    · split at h
      · split at h
        · next hname =>
          cases h
          exact liesBehind_of_readPropertyName hmid hname
        · next hname =>
          dsimp only at h
          split at h
          · cases h
            exact (hmid.trans (reaches_readPropertyName hname)).liesBehind
          · cases h
      · cases h
        exact hmid.liesBehind

end Escape

/-! ## Openings of groups -/

namespace Group

theorem liesBehind_of_readName {taken : List String} (hstart : a.Began start cur)
    (h : readName taken start cur = .error fault) : fault.LiesBehind a := by
  unfold readName at h
  split at h
  · cases h
    exact (hstart.trans cur.reaches_finish).liesBehind
  · next huntil =>
    have hafter := hstart.trans (Cursor.reaches_until huntil)
    split at h
    · split at h
      · cases h
        exact hafter.liesBehind
      · cases h
    · cases h
      exact hafter.liesBehind

theorem liesBehind_of_readModes {modes : Modes} {negated seen : Bool} (hstart : a.Began start cur)
    (h : readModes start modes negated seen cur = .error fault) : fault.LiesBehind a := by
  fun_induction readModes start modes negated seen cur with
  | case1 _ _ _ cur =>
    cases h
    exact (hstart.trans cur.reaches_finish).liesBehind
  | case2 _ _ _ _ _ _ hnext _ _ ih => exact ih (hstart.trans (Cursor.reaches_next hnext)) h
  | case3 _ _ _ _ _ _ hnext _ _ ih => exact ih (hstart.trans (Cursor.reaches_next hnext)) h
  | case4 => cases h
  | case5 => cases h
  | case6 _ _ _ _ _ _ hnext =>
    cases h
    exact (hstart.trans (Cursor.reaches_next hnext)).liesBehind

theorem liesBehind_of_readOpening {modes : Modes} {taken : List String}
    (hstart : a.Began start cur) (h : readOpening modes taken start cur = .error fault) :
    fault.LiesBehind a := by
  unfold readOpening at h
  split at h
  · next hnext =>
    have hmid := hstart.trans (Cursor.reaches_next hnext)
    split at h
    · exact liesBehind_of_readName (hmid.trans (Cursor.reaches_drop ..)) h
    · exact liesBehind_of_readModes hmid h
  · cases h

end Group

/-! ## Classes in brackets -/

namespace Bracket

variable {unicodeClasses fold : Bool}

theorem liesBehind_of_readChar (hstart : a.Began start cur)
    (h : readChar start cur = .error fault) : fault.LiesBehind a := by
  unfold readChar at h
  split at h
  · cases h
    exact (hstart.trans cur.reaches_finish).liesBehind
  · next hnext =>
    exact Escape.liesBehind_of_readChar (hstart.reaches.began (Cursor.passes_next hnext)) h
  · cases h

/-- The backslash and the letter that begin an escape are ASCII. -/
theorem pos_drop_of_startsClass (h : Escape.startsClass cur.rest) :
    (cur.drop 2).pos = cur.pos + 2 := by
  obtain ⟨c, rest, hrest, hletter⟩ := Escape.exists_of_startsClass h
  have hascii : ∀ d ∈ ['\\', c], d.utf8Size = 1 := by
    refine List.forall_mem_cons.mpr ⟨rfl, List.forall_mem_singleton.mpr ?_⟩
    simp only [Escape.isClassLetter, List.mem_cons, List.not_mem_nil, or_false,
      decide_eq_true_eq] at hletter
    rcases hletter with rfl | rfl | rfl | rfl | rfl | rfl | rfl | rfl <;> rfl
  exact Cursor.pos_drop_of_ascii hrest hascii

theorem liesBehind_of_readRange (hstart : a.Began start cur)
    (h : readRange fold start cur = .error fault) : fault.LiesBehind a := by
  unfold readRange at h
  split at h
  · next hlo =>
    cases h
    exact liesBehind_of_readChar hstart hlo
  · next lo mid hlo =>
    have hpass := passes_readChar hlo
    have hupper := hpass.trans (Cursor.reaches_drop 1 mid)
    split at h
    · dsimp only at h
      split at h
      · next hclass =>
        cases h
        rw [← pos_drop_of_startsClass hclass]
        exact ((hstart.reaches.began hupper).trans (Cursor.reaches_drop 2 _)).liesBehind
      · split at h
        · next hhi =>
          cases h
          exact liesBehind_of_readChar (hstart.trans hupper.reaches) hhi
        · next hhi =>
          split at h
          · cases h
          · cases h
            exact ((hstart.reaches.began hupper).trans (passes_readChar hhi).reaches).liesBehind
    · cases h

theorem passes_posixName? {name : List Char} (h : posixName? cur = some (name, after)) :
    cur.Passes after := by
  unfold posixName? at h
  split at h
  · next rest hrest =>
    obtain ⟨n, -, hn⟩ := Option.map_eq_some_iff.mp h
    cases hn
    refine ⟨'[', cur.drop 1, Cursor.next?_of_rest hrest, n + 3, ?_⟩
    rw [Cursor.drop_drop, ← Nat.add_assoc, Nat.add_right_comm, Nat.add_comm n]
  · cases h

theorem liesBehind_of_readItem (hstart : a.Began start cur)
    (h : readItem unicodeClasses fold start cur = .error fault) : fault.LiesBehind a := by
  unfold readItem at h
  split at h
  · next hname =>
    dsimp only at h
    split at h
    · cases h
      exact (hstart.reaches.began (passes_posixName? hname)).liesBehind
    · cases h
  · split at h
    · next hclass =>
      obtain ⟨c, rest, hrest, -⟩ := Escape.exists_of_startsClass hclass
      have hpass := Cursor.passes_next (Cursor.next?_of_rest hrest)
      split at h
      · next hread =>
        cases h
        exact Escape.liesBehind_of_readClass (hstart.reaches.began hpass) hread
      · cases h
    · exact liesBehind_of_readRange hstart h

theorem liesBehind_of_readItems {read : List ClassItem} (hstart : a.Began start cur)
    (h : readItems unicodeClasses fold start read cur = .error fault) : fault.LiesBehind a := by
  fun_induction readItems unicodeClasses fold start read cur with
  | case1 read cur =>
    cases h
    exact (hstart.trans cur.reaches_finish).liesBehind
  | case2 => cases h
  | case3 read cur c mid hnext _ fault' hitem =>
    cases h
    exact liesBehind_of_readItem hstart hitem
  | case4 read cur c mid hnext _ item after' hitem ih =>
    exact ih (hstart.trans (passes_readItem hitem).reaches) h

theorem liesBehind_of_readClass (hstart : a.Began start cur)
    (h : readClass unicodeClasses fold start cur = .error fault) : fault.LiesBehind a := by
  unfold readClass at h
  dsimp only at h
  split at h
  · next hitems =>
    cases h
    refine liesBehind_of_readItems (hstart.trans ?_) hitems
    split
    · next hnext => exact Cursor.reaches_next hnext
    · rfl
  · cases h

end Bracket

/-! ## Steps -/

namespace Parser

variable {o : ParserOptions} {s next t : State} {e : Expr}

/-- The reader stands behind `a`, and so does the beginning of every group that is open. -/
structure State.StandsBehind (a : Cursor) (s : State) : Prop where
  cur : a.Reaches s.cur
  groups : ∀ g ∈ s.groups, a.Began g.start s.cur

theorem State.standsBehind_initial (modes : Modes) (pattern : List Char) :
    (State.initial modes pattern).StandsBehind (.start pattern) :=
  ⟨.refl _, List.forall_mem_nil _⟩

theorem State.StandsBehind.step (hs : s.StandsBehind a) (h : s.step o = .ok (.next next)) :
    next.StandsBehind a := by
  have hpass := passes_step h
  have hgroups : ∀ g ∈ s.groups, a.Began g.start next.cur := by
    intro g hg
    exact (hs.groups g hg).trans hpass.reaches
  refine ⟨hs.cur.trans hpass.reaches, ?_⟩
  cases State.moves_of_step h with
  | bar | skip | switch | item => exact hgroups
  | plain | group => exact List.forall_mem_cons.mpr ⟨hs.cur.began hpass, hgroups⟩
  | close hopen _ =>
    rw [hopen] at hgroups
    exact (List.forall_mem_cons.mp hgroups).2

theorem State.liesBehind_of_push (hcur : a.Reaches cur) (h : s.push e cur = .error fault) :
    fault.LiesBehind a := by
  rw [State.push] at h
  split at h
  · next hquantify =>
    cases h
    exact liesBehind_of_quantify hcur hquantify
  · cases h

theorem State.liesBehind_of_readQuoted (hcur : a.Reaches cur)
    (h : s.readQuoted cur = .error fault) : fault.LiesBehind a := by
  rw [State.readQuoted] at h
  dsimp only at h
  split at h
  · cases h
  · exact State.liesBehind_of_push (hcur.trans (Cursor.reaches_drop ..)) h

theorem liesBehind_of_readEscape {modes : Modes} (hstart : a.Began start cur)
    (h : readEscape o modes start cur = .error fault) : fault.LiesBehind a := by
  unfold readEscape at h
  split at h
  · cases h
    exact (hstart.trans cur.reaches_finish).liesBehind
  · split at h
    · cases h
    · split at h
      · split at h
        · next hread =>
          cases h
          exact Escape.liesBehind_of_readClass hstart hread
        · cases h
      · split at h
        · next hread =>
          cases h
          exact Escape.liesBehind_of_readChar hstart hread
        · cases h

/-- A single ASCII character lies between the cursor and the one after it. -/
theorem State.liesBehind_of_next? {c : Char} (hs : a.Reaches s.cur)
    (hnext : s.cur.next? = some (c, cur)) (hc : c.utf8Size = 1) :
    Fault.LiesBehind a ⟨kind, s.cur.pos, s.cur.pos + 1⟩ := by
  rw [← hc, ← Cursor.pos_of_next? hnext]
  exact (hs.began (Cursor.passes_next hnext)).liesBehind

theorem State.liesBehind_of_enter {c : Char} (hs : a.Reaches s.cur)
    (hnext : s.cur.next? = some (c, cur)) (hc : c.utf8Size = 1) (h : s.enter o = .error fault) :
    fault.LiesBehind a := by
  rw [State.enter] at h
  split at h
  · cases h
    exact State.liesBehind_of_next? hs hnext hc
  · cases h

theorem State.liesBehind_of_openGroup (hs : a.Reaches s.cur)
    (hnext : s.cur.next? = some ('(', cur)) (h : s.openGroup o cur = .error fault) :
    fault.LiesBehind a := by
  rw [State.openGroup] at h
  split at h
  · next henter =>
    cases h
    exact State.liesBehind_of_enter hs hnext rfl henter
  · next henter =>
    obtain ⟨-, rfl⟩ := State.enter_eq_ok henter
    split at h
    · next hread =>
      cases h
      exact Group.liesBehind_of_readOpening (hs.began (Cursor.passes_next hnext)) hread
    · cases h
    · cases h
    · cases h

theorem State.liesBehind_of_closeGroup (hs : a.Reaches s.cur)
    (hnext : s.cur.next? = some (')', cur)) (h : s.closeGroup cur = .error fault) :
    fault.LiesBehind a := by
  rw [State.closeGroup] at h
  split at h
  · cases h
    exact State.liesBehind_of_next? hs hnext rfl
  · exact State.liesBehind_of_push (hs.trans (Cursor.reaches_next hnext)) h

theorem State.liesBehind_of_readBracket (hs : a.Reaches s.cur)
    (hnext : s.cur.next? = some ('[', cur)) (h : s.readBracket o cur = .error fault) :
    fault.LiesBehind a := by
  rw [State.readBracket] at h
  split at h
  · next henter =>
    cases h
    exact State.liesBehind_of_enter hs hnext rfl henter
  · next henter =>
    obtain ⟨-, rfl⟩ := State.enter_eq_ok henter
    split at h
    · next hread =>
      cases h
      exact Bracket.liesBehind_of_readClass (hs.began (Cursor.passes_next hnext)) hread
    · next hread =>
      have hafter := (Cursor.reaches_next hnext).trans (Bracket.reaches_readClass hread)
      exact State.liesBehind_of_push (hs.trans hafter) h

theorem State.liesBehind_of_readBackslash (hs : a.Reaches s.cur)
    (hnext : s.cur.next? = some ('\\', cur)) (h : s.readBackslash o cur = .error fault) :
    fault.LiesBehind a := by
  have hcur := hs.trans (Cursor.reaches_next hnext)
  rw [State.readBackslash] at h
  split at h
  · next hquote => exact State.liesBehind_of_readQuoted (hcur.trans (Cursor.reaches_next hquote)) h
  · split at h
    · next hread =>
      cases h
      exact liesBehind_of_readEscape (hs.began (Cursor.passes_next hnext)) hread
    · next hread => exact State.liesBehind_of_push (hcur.trans (reaches_readEscape hread)) h

theorem State.liesBehind_of_readBrace (hs : a.Reaches s.cur)
    (hnext : s.cur.next? = some ('{', cur)) (h : s.readBrace cur = .error fault) :
    fault.LiesBehind a := by
  rw [State.readBrace] at h
  split at h
  · next hcount =>
    cases h
    obtain ⟨hpass, hpos⟩ := passes_of_scanCount? hcount
    rw [← hpos]
    exact (hs.began hpass).liesBehind
  · exact State.liesBehind_of_push (hs.trans (Cursor.reaches_next hnext)) h

theorem State.liesBehind_of_read {c : Char} (hs : a.Reaches s.cur)
    (hnext : s.cur.next? = some (c, cur)) (h : s.read o c cur = .error fault) :
    fault.LiesBehind a := by
  have hcur := hs.trans (Cursor.reaches_next hnext)
  unfold State.read at h
  split at h
  · cases h
  · exact State.liesBehind_of_closeGroup hs hnext h
  · exact State.liesBehind_of_openGroup hs hnext h
  · exact State.liesBehind_of_readBracket hs hnext h
  · exact State.liesBehind_of_readBackslash hs hnext h
  · exact State.liesBehind_of_readBrace hs hnext h
  · exact State.liesBehind_of_push hcur h
  · exact State.liesBehind_of_push hcur h
  · exact State.liesBehind_of_push hcur h
  · split at h
    · next hsign =>
      cases h
      refine State.liesBehind_of_next? hs hnext ?_
      simp only [List.mem_cons, List.not_mem_nil, or_false] at hsign
      rcases hsign with rfl | rfl | rfl <;> rfl
    · exact State.liesBehind_of_push hcur h

theorem State.liesBehind_of_step (hs : s.StandsBehind a) (h : s.step o = .error fault) :
    fault.LiesBehind a := by
  rw [State.step] at h
  split at h
  · next hnext =>
    split at h
    · next hread =>
      cases h
      exact State.liesBehind_of_read hs.cur hnext hread
    · cases h
  · split at h
    · cases h
    · next g groups hgroups =>
      cases h
      exact (hs.groups g (hgroups ▸ List.mem_cons_self)).liesBehind

/-- What is wrong with a pattern lies between two positions of it. -/
theorem State.liesBehind_of_run (hs : s.StandsBehind a) (h : s.run o = .error fault) :
    fault.LiesBehind a := by
  obtain ⟨t, hst, hstep⟩ := State.exists_of_run_eq_error h
  exact State.liesBehind_of_step (hst.keeps hs fun _ _ => State.StandsBehind.step) hstep

end Parser
end LinearRegex
