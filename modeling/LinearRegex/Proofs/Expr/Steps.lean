import LinearRegex.Expr.Parser
import Mathlib.Logic.Relation

/-!
# What a step of the reader does

A step reads an item and its quantifier, opens or closes a group, switches modes, skips a quotation
of nothing, or begins another branch, and leaves all else as it was (`Parser.State.moves_of_step`).
What holds of a pattern that has been read, or of the fault that stands in its way, is found by
going through these cases, and then along the states that reading leads to
(`Parser.State.exists_of_run_eq_ok`, `Parser.State.exists_of_run_eq_error`).
-/

namespace LinearRegex
namespace Parser

variable {o : ParserOptions} {s next t : State} {cur after : Cursor} {e : Expr} {fault : Fault}

/-- A single item that may come next: it is not put together of others. -/
inductive State.IsItem (o : ParserOptions) (s : State) : Expr → Prop
  | literal (c : Char) : s.IsItem o (literal s.modes c)
  | dot : s.IsItem o (.charClass (dot s.modes))
  | bound {l : Look} (hl : l ∈ [.startText, .endText, .startLine, .endLine]) : s.IsItem o (.look l)
  | bracket {cur after : Cursor} {k : CharClass} (hdepth : s.depth < o.nestLimit)
      (hread : Bracket.readClass o.unicodeClasses s.modes.ignoreCase s.cur.pos cur =
        .ok (k, after)) : s.IsItem o (.charClass k)
  | escape {cur after : Cursor} {e : Expr} (hnext : s.cur.next? = some ('\\', cur))
      (hread : readEscape o s.modes s.cur.pos cur = .ok (e, after)) : s.IsItem o e

/-- What a step makes of a state. -/
inductive State.Moves (o : ParserOptions) (s : State) : State → Prop
  /-- Another branch begins. -/
  | bar {cur : Cursor} :
    s.Moves o { s with cur := cur, branches := concatOf s.items :: s.branches, items := [] }
  /-- Nothing is quoted. -/
  | skip {cur : Cursor} : s.Moves o { s with cur := cur }
  | switch {cur after : Cursor} {modes : Modes} (hdepth : s.depth < o.nestLimit)
      (hnext : s.cur.next? = some ('(', cur))
      (hread : Group.readOpening s.modes s.names s.cur.pos cur = .ok (.modes modes, after)) :
    s.Moves o { s with cur := after, modes := modes }
  /-- An item is read with its quantifier, after characters that are quoted along with it. -/
  | item {mid after : Cursor} {e e' : Expr} (quoted : List Char) (he : s.IsItem o e)
      (hquantify : quantify s.modes.swapGreed e mid = .ok (e', after)) :
    s.Moves o { s with
      cur := after
      items := e' :: ((quoted.map (literal s.modes)).reverse ++ s.items) }
  /-- A group without a number begins. -/
  | plain {cur after : Cursor} {modes : Modes} (hdepth : s.depth < o.nestLimit)
      (hnext : s.cur.next? = some ('(', cur))
      (hread : Group.readOpening s.modes s.names s.cur.pos cur = .ok (.plain modes, after)) :
    s.Moves o { s with
      cur := after
      modes := modes
      depth := s.depth + 1
      groups := ⟨s.cur.pos, none, s.modes, s.branches, s.items⟩ :: s.groups
      branches := []
      items := [] }
  /-- A numbered group begins. -/
  | group {cur after : Cursor} {name : Option String} (hdepth : s.depth < o.nestLimit)
      (hnext : s.cur.next? = some ('(', cur))
      (hread : Group.readOpening s.modes s.names s.cur.pos cur = .ok (.capture name, after)) :
    s.Moves o { s with
      cur := after
      captures := s.captures + 1
      names := name.toList ++ s.names
      depth := s.depth + 1
      groups := ⟨s.cur.pos, some (s.captures + 1, name), s.modes, s.branches, s.items⟩ :: s.groups
      branches := []
      items := [] }
  /-- The innermost group ends and its quantifier is read. -/
  | close {mid after : Cursor} {g : OpenGroup} {groups : List OpenGroup} {e' : Expr}
      (hgroups : s.groups = g :: groups)
      (hquantify : quantify g.modes.swapGreed (g.close s.body) mid = .ok (e', after)) :
    s.Moves o { s with
      cur := after
      modes := g.modes
      depth := s.depth - 1
      groups := groups
      branches := g.branches
      items := e' :: g.items }

/-! ## One step -/

/-- An escape stands for an assertion, a class or a character. -/
theorem cases_of_readEscape {modes : Modes} {start : Nat}
    (h : readEscape o modes start cur = .ok (e, after)) :
    (∃ l, e = .look l) ∨ (∃ k, e = .charClass k) ∨ ∃ c, e = literal modes c := by
  unfold readEscape at h
  split at h
  · cases h
  · split at h
    · cases h
      exact Or.inl ⟨_, rfl⟩
    · split at h
      · split at h
        · cases h
        · cases h
          exact Or.inr (Or.inl ⟨_, rfl⟩)
      · split at h
        · cases h
        · cases h
          exact Or.inr (Or.inr ⟨_, rfl⟩)

/-- So does every single item. -/
theorem State.IsItem.cases (h : s.IsItem o e) :
    (∃ l, e = .look l) ∨ (∃ k, e = .charClass k) ∨ ∃ c, e = Parser.literal s.modes c := by
  cases h with
  | literal c => exact Or.inr (Or.inr ⟨c, rfl⟩)
  | dot => exact Or.inr (Or.inl ⟨_, rfl⟩)
  | @bound l _ => exact Or.inl ⟨l, rfl⟩
  | @bracket _ _ k => exact Or.inr (Or.inl ⟨k, rfl⟩)
  | escape _ hread => exact cases_of_readEscape hread

/-- An item that is added has been read with its quantifier. -/
theorem State.exists_of_push (h : s.push e cur = .ok next) :
    ∃ e' after, quantify s.modes.swapGreed e cur = .ok (e', after) ∧
      next = { s with cur := after, items := e' :: s.items } := by
  rw [State.push] at h
  split at h
  · cases h
  · next e' after hquantify =>
    cases h
    exact ⟨e', after, hquantify, rfl⟩

theorem State.moves_of_push (he : s.IsItem o e) (h : s.push e cur = .ok next) :
    s.Moves o next := by
  obtain ⟨e', after, hquantify, rfl⟩ := State.exists_of_push h
  exact .item [] he hquantify

theorem State.moves_of_readQuoted (h : s.readQuoted cur = .ok next) : s.Moves o next := by
  rw [State.readQuoted] at h
  dsimp only at h
  split at h
  · cases h
    exact .skip
  · next last _ =>
    obtain ⟨e', after, hquantify, rfl⟩ := State.exists_of_push h
    exact .item _ (.literal last) hquantify

theorem State.moves_of_openGroup (hnext : s.cur.next? = some ('(', cur))
    (h : s.openGroup o cur = .ok next) : s.Moves o next := by
  rw [State.openGroup] at h
  split at h
  · cases h
  · next henter =>
    obtain ⟨hdepth, rfl⟩ := State.enter_eq_ok henter
    split at h
    · cases h
    · next hread =>
      cases h
      exact .switch hdepth hnext hread
    · next hread =>
      cases h
      exact .plain hdepth hnext hread
    · next hread =>
      cases h
      exact .group hdepth hnext hread

theorem State.moves_of_closeGroup (h : s.closeGroup cur = .ok next) : s.Moves o next := by
  rw [State.closeGroup] at h
  split at h
  · cases h
  · next g groups hgroups =>
    obtain ⟨e', after, hquantify, rfl⟩ := State.exists_of_push h
    exact .close hgroups hquantify

theorem State.moves_of_readBracket (h : s.readBracket o cur = .ok next) : s.Moves o next := by
  rw [State.readBracket] at h
  split at h
  · cases h
  · next henter =>
    obtain ⟨hdepth, rfl⟩ := State.enter_eq_ok henter
    split at h
    · cases h
    · next hread => exact State.moves_of_push (.bracket hdepth hread) h

theorem State.moves_of_readBackslash (hnext : s.cur.next? = some ('\\', cur))
    (h : s.readBackslash o cur = .ok next) : s.Moves o next := by
  rw [State.readBackslash] at h
  split at h
  · exact State.moves_of_readQuoted h
  · split at h
    · cases h
    · next hread => exact State.moves_of_push (.escape hnext hread) h

theorem State.moves_of_readBrace (h : s.readBrace cur = .ok next) : s.Moves o next := by
  rw [State.readBrace] at h
  split at h
  · cases h
  · exact State.moves_of_push (.literal '{') h

/-- Everything that a step can do. -/
theorem State.moves_of_step (h : s.step o = .ok (.next next)) : s.Moves o next := by
  rw [State.step] at h
  split at h
  · next c cur hnext =>
    split at h
    · cases h
    · next hread =>
      cases h
      unfold State.read at hread
      split at hread
      · cases hread
        exact .bar
      · exact State.moves_of_closeGroup hread
      · exact State.moves_of_openGroup hnext hread
      · exact State.moves_of_readBracket hread
      · exact State.moves_of_readBackslash hnext hread
      · exact State.moves_of_readBrace hread
      · exact State.moves_of_push .dot hread
      · refine State.moves_of_push (.bound ?_) hread
        split <;> simp
      · refine State.moves_of_push (.bound ?_) hread
        split <;> simp
      · split at hread
        · cases hread
        · exact State.moves_of_push (.literal c) hread
  · split at h <;> cases h

/-- Reading is finished at the end of the pattern, when no group is open. -/
theorem State.eq_body_of_step (h : s.step o = .ok (.finished e)) :
    s.cur.next? = none ∧ s.groups = [] ∧ e = s.body := by
  rw [State.step] at h
  split at h
  · split at h <;> cases h
  · next hnext =>
    split at h
    · next hgroups =>
      cases h
      exact ⟨hnext, hgroups, rfl⟩
    · cases h

theorem State.step_of_read {c : Char} (hnext : s.cur.next? = some (c, cur))
    (hread : s.read o c cur = .ok next) : s.step o = .ok (.next next) := by
  rw [State.step, hnext]
  dsimp only
  rw [hread]

/-! ## All steps -/

/-- Reading leads from one state to another. -/
def State.LeadsTo (o : ParserOptions) : State → State → Prop :=
  Relation.ReflTransGen fun s next => s.step o = .ok (.next next)

theorem State.run_of_next (h : s.step o = .ok (.next next)) : s.run o = next.run o := by
  rw [State.run]
  split <;> simp_all

theorem State.run_of_finished (h : s.step o = .ok (.finished e)) : s.run o = .ok e := by
  rw [State.run]
  split <;> simp_all

theorem State.run_of_error (h : s.step o = .error fault) : s.run o = .error fault := by
  rw [State.run]
  split <;> simp_all

/-- What every step keeps holds of all states that reading leads to. -/
theorem State.LeadsTo.keeps {R : State → Prop} (hst : s.LeadsTo o t) (hs : R s)
    (hstep : ∀ s next, R s → s.step o = .ok (.next next) → R next) : R t := by
  induction hst with
  | refl => exact hs
  | tail _ h ih => exact hstep _ _ ih h

/-- What is to be read from a state is to be read from those that lead to it. -/
theorem State.LeadsTo.run_eq (h : s.LeadsTo o t) : s.run o = t.run o := by
  induction h with
  | refl => rfl
  | tail _ hstep ih => exact ih.trans (State.run_of_next hstep)

/-- An expression that is read is finished in some state. -/
theorem State.exists_of_run_eq_ok (h : s.run o = .ok e) :
    ∃ t, s.LeadsTo o t ∧ t.step o = .ok (.finished e) := by
  fun_induction State.run o s with
  | case1 => cases h
  | case2 s e' hstep =>
    cases h
    exact ⟨s, .refl, hstep⟩
  | case3 s next hstep ih =>
    obtain ⟨t, hnext, ht⟩ := ih h
    exact ⟨t, .head hstep hnext, ht⟩

/-- A fault is that of a step. -/
theorem State.exists_of_run_eq_error (h : s.run o = .error fault) :
    ∃ t, s.LeadsTo o t ∧ t.step o = .error fault := by
  fun_induction State.run o s with
  | case1 s fault' hstep =>
    cases h
    exact ⟨s, .refl, hstep⟩
  | case2 => cases h
  | case3 s next hstep ih =>
    obtain ⟨t, hnext, ht⟩ := ih h
    exact ⟨t, .head hstep hnext, ht⟩

/-- What holds of a state and of all that its next one leads to, holds of all that it leads to. -/
theorem State.forall_leadsTo_of_next {R : State → Prop} (hs : R s)
    (hstep : s.step o = .ok (.next next)) (hnext : ∀ t, next.LeadsTo o t → R t) :
    ∀ t, s.LeadsTo o t → R t := by
  intro t ht
  rcases ht.cases_head with rfl | ⟨next', hstep', hrest⟩
  · exact hs
  · cases hstep.symm.trans hstep'
    exact hnext t hrest

theorem State.forall_leadsTo_of_finished {R : State → Prop} (hs : R s)
    (hstep : s.step o = .ok (.finished e)) : ∀ t, s.LeadsTo o t → R t := by
  intro t ht
  rcases ht.cases_head with rfl | ⟨next, hstep', -⟩
  · exact hs
  · cases hstep.symm.trans hstep'

end Parser

/-- A pattern that is read is read to its end. -/
theorem Expr.run_of_parse {o : ParserOptions} {pattern : String} {e : Expr}
    (h : parse o pattern = .ok e) :
    (Parser.State.initial o.modes pattern.toList).run o = .ok e := by
  rw [parse] at h
  cases hrun : (Parser.State.initial o.modes pattern.toList).run o with
  | error fault =>
    rw [hrun] at h
    cases h
  | ok e' =>
    rw [hrun] at h
    cases h
    rfl

end LinearRegex
