import LinearRegex.Proofs.CharSet.Complement
import LinearRegex.Proofs.CharSet.Folding
import LinearRegex.Proofs.Expr.Reading
import Mathlib.Logic.Basic

/-!
# What a class stands for

An item of a class holds a character if the character is between its bounds or, with `fold`, equal
but for case to one that is; a class within the class holds what is in its own set.  The set of a
class has the characters that some item holds, or, for a negated class, those that no item holds
(`CharClass.toSet_has_what_items_hold`).  Its ranges ascend.

A negated class departs from this at the surrogates.  If one of its ranges ends with the last
character before them and another begins with the first one behind them, its set has both
(`CharClass.surrogateNeighbours_not_excluded`).
-/

namespace LinearRegex

/-- The characters of a range: those between its bounds and, with `fold`, those equal to one of
them but for case. -/
def ClassRange.Holds (r : ClassRange) (c : Char) : Prop :=
  r.range.contains c ∨ r.fold ∧ ∃ d, r.range.contains d ∧ c ∈ Unicode.caseOrbit d

/-- The characters of an item: those of the range, or those in the set of the class. -/
def ClassItem.Holds : ClassItem → Char → Prop
  | range r, c => r.Holds c
  | nested negated ranges, c => (CharClass.ofRanges negated ranges).toSet.contains c

theorem ClassRange.exists_mem_chars {r : ClassRange} {c : Char} :
    (∃ s ∈ r.chars, s.contains c) ↔ r.Holds c := by
  unfold chars Holds
  split
  · next hfold =>
    rw [CharRange.exists_mem_foldCase, and_iff_right hfold, iff_or_self]
    intro hc
    exact ⟨c, hc, Unicode.self_mem_caseOrbit c⟩
  · next hfold => simp [hfold]

theorem CharSet.ranges_toSet_ofRanges (negated : Bool) (ranges : List ClassRange) :
    (CharClass.ofRanges negated ranges).toSet =
      ofClass negated (ranges.flatMap ClassRange.chars) := by
  rw [CharClass.toSet, CharClass.ofRanges, List.flatMap_map]
  rfl

theorem ClassItem.exists_mem_chars {item : ClassItem} {c : Char} :
    (∃ s ∈ item.chars, s.contains c) ↔ item.Holds c := by
  cases item with
  | range r => exact ClassRange.exists_mem_chars
  | nested negated ranges => rw [Holds, CharSet.ranges_toSet_ofRanges, CharSet.contains_iff, chars]

theorem CharSet.contains_ofClass {negated : Bool} {rs : List CharRange} {c : Char} :
    (ofClass negated rs).contains c ↔
      Xor (∃ r ∈ rs, r.contains c) (negated = true) ∨
        negated ∧ MeetAtSurrogates rs ∧ BordersSurrogates c := by
  cases negated with
  | false => simp [ofClass, contains_ofRanges, Xor]
  | true =>
    rw [ofClass, if_pos rfl, contains_complement (pairwise_ofRanges rs), contains_ofRanges,
      meetAtSurrogates_ofRanges]
    simp [Xor]

namespace CharClass

/-- Some item of the class holds the character. -/
def SomeHolds (k : CharClass) (c : Char) : Prop :=
  ∃ item ∈ k.items, item.Holds c

/-- The characters on both sides of the surrogates are in ranges of the items, but not in one. -/
def IsSplitAtSurrogates (k : CharClass) : Prop :=
  MeetAtSurrogates (k.items.flatMap ClassItem.chars)

theorem exists_mem_flatMap_chars {k : CharClass} {c : Char} :
    (∃ r ∈ k.items.flatMap ClassItem.chars, r.contains c) ↔ k.SomeHolds c := by
  simp only [SomeHolds, ← ClassItem.exists_mem_chars, List.mem_flatMap]
  constructor
  · rintro ⟨r, ⟨item, hitem, hr⟩, hc⟩
    exact ⟨item, hitem, r, hr, hc⟩
  · rintro ⟨item, hitem, r, hr, hc⟩
    exact ⟨r, ⟨item, hitem, hr⟩, hc⟩

theorem contains_toSet_iff {k : CharClass} {c : Char} :
    k.toSet.contains c ↔
      Xor (k.SomeHolds c) (k.negated = true) ∨
        k.negated ∧ k.IsSplitAtSurrogates ∧ BordersSurrogates c := by
  rw [toSet, CharSet.contains_ofClass, exists_mem_flatMap_chars]
  rfl

/-- A class stands for the characters that some item of it holds, or, if negated, for those that
none holds.  A negated class whose ranges meet at the surrogates also has the two characters where
they meet.  In any case the ranges ascend. -/
theorem toSet_has_what_items_hold (k : CharClass) :
    k.toSet.IsAscending ∧ ∀ c, k.toSet.contains c ↔
      Xor (k.SomeHolds c) (k.negated = true) ∨
        k.negated ∧ k.IsSplitAtSurrogates ∧ BordersSurrogates c :=
  ⟨CharSet.isAscending_toSet k, fun _ => contains_toSet_iff⟩

/-- The class of the characters other than the two neighbours of the surrogates. -/
def surrogateNeighbours : CharClass :=
  .ofRanges true [⟨.single '\ud7ff', false⟩, ⟨.single '\ue000', false⟩]

theorem readClass_surrogateNeighbours :
    Bracket.readClass true false 0 ⟨"^\ud7ff\ue000]".toList, 1⟩ =
      .ok (surrogateNeighbours, ⟨[], 9⟩) :=
  Bracket.readClass_of_caret rfl <|
    (Bracket.readItems_of_item rfl (by decide) rfl).trans <|
      (Bracket.readItems_of_item rfl (by decide) rfl).trans <|
        Bracket.readItems_of_close rfl (List.cons_ne_nil _ _)

theorem parse_surrogateNeighbours :
    Expr.parse {} "[^\ud7ff\ue000]" = .ok (.charClass surrogateNeighbours) := by
  have hbracket :
      (Parser.State.initial (ParserOptions.modes {}) "[^\ud7ff\ue000]".toList).readBracket {}
        ⟨"^\ud7ff\ue000]".toList, 1⟩ = _ :=
    Parser.State.readBracket_of_readClass rfl readClass_surrogateNeighbours
  have hread :
      (Parser.State.initial (ParserOptions.modes {}) "[^\ud7ff\ue000]".toList).read {} '['
        ⟨"^\ud7ff\ue000]".toList, 1⟩ = .ok _ := hbracket
  have hrun : (Parser.State.initial (ParserOptions.modes {}) "[^\ud7ff\ue000]".toList).run {} =
      .ok (.charClass surrogateNeighbours) :=
    (Parser.State.run_of_next (Parser.State.step_of_read rfl hread)).trans <|
      Parser.State.run_of_finished rfl
  exact congrArg (Except.mapError (Fault.inPattern · "[^\ud7ff\ue000]")) hrun

/-- The class that a pattern excludes both neighbours of the surrogates with holds one of them. -/
theorem surrogateNeighbours_not_excluded :
    Expr.parse {} "[^\ud7ff\ue000]" = .ok (.charClass surrogateNeighbours) ∧
      ¬(surrogateNeighbours.toSet.contains '\ud7ff' ↔
        Xor (surrogateNeighbours.SomeHolds '\ud7ff') (surrogateNeighbours.negated = true)) := by
  refine ⟨parse_surrogateNeighbours, fun h => ?_⟩
  have hmeet : MeetAtSurrogates [.single '\ud7ff', .single '\ue000'] := by
    unfold MeetAtSurrogates CharRange.SpansSurrogates
    decide
  have hcontains : surrogateNeighbours.toSet.contains '\ud7ff' :=
    CharSet.contains_ofClass.mpr (.inr ⟨rfl, hmeet, .inl rfl⟩)
  have hholds : surrogateNeighbours.SomeHolds '\ud7ff' :=
    ⟨.range ⟨.single '\ud7ff', false⟩, List.mem_cons_self, .inl (by decide)⟩
  rcases h.mp hcontains with ⟨-, hnot⟩ | ⟨-, hnot⟩
  · exact hnot rfl
  · exact hnot hholds

end CharClass
end LinearRegex
