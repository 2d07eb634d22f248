import LinearRegex.Proofs.Expr.Reading

/-!
# Expressions that come from a pattern

Not every tree is the tree of a pattern.  In those that the reader makes, groups are numbered from
1 on, a repetition needs no more copies than it allows, and no choice is without branches
(`wellFormed_of_parse`).  Single items have no parts, so this is what the reader sees to when it
puts them together.
-/

namespace LinearRegex

namespace Expr

mutual

/-- Groups have positive numbers, the bounds of repetitions are in order, and there is a branch
wherever there is a choice. -/
def WellFormed : Expr → Prop
  | empty | literal .. | charClass _ | look _ => True
  | repetition min max _ body => (∀ m ∈ max, min ≤ m) ∧ body.WellFormed
  | capture index _ body => 0 < index ∧ body.WellFormed
  | concat parts => WellFormedAll parts
  | alternation branches => branches ≠ [] ∧ WellFormedAll branches

/-- Every expression of a list is well formed. -/
def WellFormedAll : List Expr → Prop
  | [] => True
  | e :: es => e.WellFormed ∧ WellFormedAll es

end

theorem wellFormedAll_iff {es : List Expr} : WellFormedAll es ↔ ∀ e ∈ es, e.WellFormed := by
  induction es with
  | nil => simp [WellFormedAll]
  | cons e es ih => rw [WellFormedAll, ih, List.forall_mem_cons]

theorem isInherited_wellFormed : IsInherited WellFormed where
  empty := trivial
  literals _ _ := trivial
  repetition hbounds hbody := ⟨hbounds, hbody⟩
  capture hindex hbody := ⟨hindex, hbody⟩
  concat hparts := wellFormedAll_iff.mpr hparts
  alternation hne hbranches := ⟨hne, wellFormedAll_iff.mpr hbranches⟩

end Expr

namespace Parser

/-- An escape stands for an expression without parts. -/
theorem wellFormed_of_readEscape {o : ParserOptions} {modes : Modes} {start : Nat}
    {cur after : Cursor} {e : Expr} (h : readEscape o modes start cur = .ok (e, after)) :
    e.WellFormed := by
  rcases cases_of_readEscape h with ⟨l, rfl⟩ | ⟨k, rfl⟩ | ⟨c, rfl⟩ <;> trivial

theorem State.supplies_wellFormed (o : ParserOptions) (s : State) :
    s.Supplies o (fun _ => True) Expr.WellFormed where
  literal _ := trivial
  dot := trivial
  bound _ _ := trivial
  bracket _ := trivial
  escape _ h := wellFormed_of_readEscape h
  opening {_ _ opening} _ _ := by cases opening <;> trivial

end Parser

namespace Expr

/-- The expression of a pattern is well formed. -/
theorem wellFormed_of_parse {o : ParserOptions} {pattern : String} {e : Expr}
    (h : parse o pattern = .ok e) : e.WellFormed :=
  of_parse isInherited_wellFormed.isComposed trivial (fun s _ _ => s.supplies_wellFormed o) h

theorem parse_empty : parse {} "" = .ok empty := by
  have hrun : (Parser.State.initial (ParserOptions.modes {}) "".toList).run {} = .ok empty :=
    Parser.State.run_of_finished rfl
  exact congrArg (Except.mapError (Fault.inPattern · "")) hrun

/-- The expression of `(a|b)*`. -/
def repeatedGroup : Expr :=
  .repetition 0 none true
    (.capture 1 none (.alternation [.literal ['a'] false, .literal ['b'] false]))

/-- The expression is read in five steps. -/
theorem parse_repeatedGroup : parse {} "(a|b)*" = .ok repeatedGroup := by
  have hrun : (Parser.State.initial (ParserOptions.modes {}) "(a|b)*".toList).run {} =
      .ok repeatedGroup :=
    (Parser.State.run_of_next rfl).trans <| (Parser.State.run_of_next rfl).trans <|
      (Parser.State.run_of_next rfl).trans <| (Parser.State.run_of_next rfl).trans <|
        (Parser.State.run_of_next rfl).trans <| Parser.State.run_of_finished rfl
  exact congrArg (Except.mapError (Fault.inPattern · "(a|b)*")) hrun

end Expr
end LinearRegex
