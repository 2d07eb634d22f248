import LinearRegex.Proofs.Program.Compile

/-!
# What a path leaves in the slots

A path stores the start of a group when it enters it and the end when it leaves it, in slots that
copies and turns of a loop share.  So once a path has crossed a block, each group is as it was, or
both of its slots have been stored on the way, with text between them (`Advances`).  A match comes
from slots that hold nothing, so a group that is set at all lies within it
(`Program.advances_of_mem_results`).
-/

namespace LinearRegex

open Utf8 (IsText)

/-- Group `g` lies between `i` and `j`, with text before it, in it and behind it. -/
def Slots.HoldsBetween (h : ByteArray) (s : Slots) (g i j : Nat) : Prop :=
  ∃ start stop, s.offset? (2 * g) = some start ∧ s.offset? (2 * g + 1) = some stop ∧
    IsText h i start ∧ IsText h start stop ∧ IsText h stop j

/-- There is text from one point to the other, and every group is as it was or lies there. -/
structure Advances (h : ByteArray) (a b : Point) : Prop where
  text : IsText h a.1 b.1
  size : b.2.size = a.2.size
  group : ∀ g, 2 * g + 1 < a.2.size →
    (b.2.offset? (2 * g) = a.2.offset? (2 * g) ∧
      b.2.offset? (2 * g + 1) = a.2.offset? (2 * g + 1)) ∨ b.2.HoldsBetween h g a.1 b.1

variable {h : ByteArray} {a b c : Point}

theorem Slots.HoldsBetween.widen {s : Slots} {g i i' j j' : Nat} (hs : s.HoldsBetween h g i j)
    (hi : IsText h i' i) (hj : IsText h j j') : s.HoldsBetween h g i' j' := by
  obtain ⟨start, stop, hstart, hstop, hbefore, hwithin, hbehind⟩ := hs
  exact ⟨start, stop, hstart, hstop, hi.trans hbefore, hwithin, hbehind.trans hj⟩

namespace Advances

/-- Text that stores nothing. -/
theorem of_isText {j : Nat} (htext : IsText h a.1 j) : Advances h a (j, a.2) :=
  ⟨htext, rfl, fun _ _ => Or.inl ⟨rfl, rfl⟩⟩

theorem trans (hab : Advances h a b) (hbc : Advances h b c) : Advances h a c := by
  constructor
  case text => exact hab.text.trans hbc.text
  case size => exact hbc.size.trans hab.size
  case group =>
    intro g hg
    have hg' : 2 * g + 1 < b.2.size := by rwa [hab.size]
    rcases hbc.group g hg' with ⟨hstart, hstop⟩ | hbetween
    · rcases hab.group g hg with ⟨hstart', hstop'⟩ | ⟨start, stop, hstart', hstop', hwithin⟩
      · exact Or.inl ⟨hstart.trans hstart', hstop.trans hstop'⟩
      · have hkept : c.2.HoldsBetween h g a.1 b.1 :=
          ⟨start, stop, hstart.trans hstart', hstop.trans hstop', hwithin⟩
        exact Or.inr (hkept.widen (.refl _) hbc.text)
    · exact Or.inr (hbetween.widen hab.text (.refl _))

/-- A group comes to lie where its body does.  The other groups do as they do in the body. -/
theorem capture {index : Nat} (hbody : Advances h (a.1, a.2.store (2 * index) (some a.1)) b) :
    Advances h a (b.1, b.2.store (2 * index + 1) (some b.1)) := by
  have hsize : b.2.size = a.2.size := by
    rw [hbody.size, Slots.size_store]
  constructor
  case text => exact hbody.text
  case size => rw [Slots.size_store, hsize]
  case group =>
    intro g hg
    have hgroup := hbody.group g (by rwa [Slots.size_store])
    have heven : (b.2.store (2 * index + 1) (some b.1)).offset? (2 * g) = b.2.offset? (2 * g) :=
      Slots.offset?_store_of_ne (by omega) _
    rcases eq_or_ne index g with rfl | hne
    · have hodd : (b.2.store (2 * index + 1) (some b.1)).offset? (2 * index + 1) = some b.1 :=
        Slots.offset?_store_self (by omega) _
      apply Or.inr
      rcases hgroup with ⟨hstart, -⟩ | ⟨start, stop, hstart, -, hbefore, hwithin, hbehind⟩
      · rw [Slots.offset?_store_self (by omega)] at hstart
        exact ⟨a.1, b.1, heven.trans hstart, hodd, .refl _, hbody.text, .refl _⟩
      · -- The body has a group of the same number, whose start is the one that is left.
        exact ⟨start, b.1, heven.trans hstart, hodd, hbefore, hwithin.trans hbehind, .refl _⟩
    · have hodd : (b.2.store (2 * index + 1) (some b.1)).offset? (2 * g + 1) =
          b.2.offset? (2 * g + 1) := Slots.offset?_store_of_ne (by omega) _
      rcases hgroup with ⟨hstart, hstop⟩ | ⟨start, stop, hstart, hstop, hwithin⟩
      · rw [Slots.offset?_store_of_ne (by omega)] at hstart hstop
        exact Or.inl ⟨heven.trans hstart, hodd.trans hstop⟩
      · exact Or.inr ⟨start, stop, heven.trans hstart, hodd.trans hstop, hwithin⟩

end Advances

/-- A path that crosses the block of an expression of a pattern advances. -/
theorem ByteExpr.Crosses.advances {e : ByteExpr} (hcrosses : e.Crosses h a b)
    (he : e.IsTextual) : Advances h a b := by
  induction hcrosses with
  | leaf hleaf hj => exact .of_isText (isText_of_spans he ((spans_iff_leafEnd? hleaf).mpr hj))
  | capture _ ih => exact (ih he).capture
  | seq _ _ ih₁ ih₂ => exact (ih₁ he.1).trans (ih₂ he.2)
  | first _ ih => exact ih he.1
  | second _ ih => exact ih he.2
  | timesLast _ ih | atMostLast _ ih | plusLast _ ih => exact ih he
  | timesMore _ _ ih₁ ih₂ | atMostMore _ _ ih₁ ih₂ | starMore _ _ ih₁ ih₂ | plusMore _ _ ih₁ ih₂ =>
    exact (ih₁ he).trans (ih₂ he)
  | atMostNone | starNone => exact .of_isText (.refl _)

/-- A path to a match advances. -/
theorem Program.advances_of_mem_results (longest : Bool) {e : Expr} (he : e.WellFormed)
    {input : Input} {d : Node × Slots}
    (hd : d ∈ (ofExpr longest e).results input (0, a.1) a.2) :
    Advances input.haystack a (d.1.2, d.2) := by
  obtain ⟨n, hpath⟩ := exists_carriesIn_of_mem_results hd
  have hcrosses :=
    crosses_of_carriesIn longest e (instr_of_accepts (accepts_of_mem_results hd)) hpath
  have htextual : (ByteExpr.capture 0 e.bytewise).IsTextual := Expr.isTextual_bytewise he
  exact hcrosses.advances htextual

end LinearRegex
