import LinearRegex.Proofs.Text.Stretch

/-!
# Where characters begin

In valid UTF-8 there is a character at every position where one may begin, but for the end
(`Utf8.exists_decodeAt?_of_isBoundary`).  So there is one such position more than there are
characters (`Utf8.card_boundariesFrom_toUTF8`).
-/

namespace LinearRegex
namespace Utf8

variable {h : ByteArray} {i j k : Nat}

/-- No character begins at the end. -/
theorem decodeAt?_size (h : ByteArray) : decodeAt? h h.size = none := by
  rw [Option.eq_none_iff_forall_ne_some]
  intro c hc
  have hsize := ByteArray.le_size_of_utf8DecodeChar?_eq_some hc
  exact absurd hsize (Nat.not_le.mpr (Nat.lt_add_of_pos_right c.utf8Size_pos))

theorem exists_decodeAt?_of_isBoundary (hvalid : h.IsValidUTF8) (hlt : i < h.size)
    (hi : isBoundary h i) : ∃ c, decodeAt? h i = some c := by
  cases IsText.of_isBoundary hvalid (Nat.le_of_lt hlt) hi with
  | refl => exact absurd hlt (Nat.lt_irrefl _)
  | step hc _ => exact ⟨_, hc⟩

/-- The positions from `i` on where a character may begin.  The end is one of them. -/
def boundariesFrom (h : ByteArray) (i : Nat) : Finset Nat :=
  (Finset.Icc i h.size).filter fun k => isBoundary h k

theorem mem_boundariesFrom :
    k ∈ boundariesFrom h i ↔ (i ≤ k ∧ k ≤ h.size) ∧ isBoundary h k := by
  rw [boundariesFrom, Finset.mem_filter, Finset.mem_Icc]

/-- Behind one of the positions there are fewer of them left. -/
theorem card_boundariesFrom_lt (hk : k ∈ boundariesFrom h i) (hkj : k < j) :
    (boundariesFrom h j).card < (boundariesFrom h i).card := by
  obtain ⟨⟨hik, -⟩, -⟩ := mem_boundariesFrom.mp hk
  refine Finset.card_lt_card (Finset.ssubset_iff_subset_ne.mpr ⟨fun m hm => ?_, fun heq => ?_⟩)
  · obtain ⟨⟨hjm, hsize⟩, hm⟩ := mem_boundariesFrom.mp hm
    exact mem_boundariesFrom.mpr ⟨⟨by omega, hsize⟩, hm⟩
  · rw [← heq] at hk
    exact absurd (mem_boundariesFrom.mp hk).1.1 (Nat.not_le.mpr hkj)

/-- A character begins at one position, and none begins inside it. -/
theorem boundariesFrom_of_decodeAt? {c : Char} (hc : decodeAt? h i = some c) :
    boundariesFrom h i = insert i (boundariesFrom h (i + c.utf8Size)) := by
  have hsize := ByteArray.le_size_of_utf8DecodeChar?_eq_some hc
  have hpos := c.utf8Size_pos
  ext k
  rw [Finset.mem_insert, mem_boundariesFrom, mem_boundariesFrom]
  constructor
  · rintro ⟨⟨hik, hk⟩, hboundary⟩
    rcases Nat.eq_or_lt_of_le hik with rfl | hlt
    · exact Or.inl rfl
    · refine Or.inr ⟨⟨Nat.le_of_not_lt fun hinside => ?_, hk⟩, hboundary⟩
      rw [isBoundary_eq_false_of_decodeAt? hc hlt hinside] at hboundary
      cases hboundary
  · rintro (rfl | ⟨⟨hik, hk⟩, hboundary⟩)
    · exact ⟨⟨Nat.le_refl _, by omega⟩, isBoundary_of_decodeAt? hc⟩
    · exact ⟨⟨by omega, hk⟩, hboundary⟩

theorem card_boundariesFrom {cs : List Char} (hi : i ≤ h.size)
    (hcs : h.extract i h.size = cs.utf8Encode) : (boundariesFrom h i).card = cs.length + 1 := by
  induction cs generalizing i with
  | nil =>
    have hsize := congrArg ByteArray.size hcs
    rw [ByteArray.size_extract, List.utf8Encode_nil, ByteArray.size_empty] at hsize
    obtain rfl : i = h.size := by omega
    have hend : isBoundary h h.size := by
      rw [isBoundary, getElem?_neg h h.size (Nat.lt_irrefl _)]
    rw [boundariesFrom, Finset.Icc_self, Finset.filter_singleton, if_pos hend,
      Finset.card_singleton, List.length_nil]
  | cons c cs ih =>
    obtain ⟨hc, hrest⟩ := decodeAt?_of_extract_eq hcs
    have hnot : i ∉ boundariesFrom h (i + c.utf8Size) := fun hmem =>
      absurd (mem_boundariesFrom.mp hmem).1.1
        (Nat.not_le.mpr (Nat.lt_add_of_pos_right c.utf8Size_pos))
    rw [boundariesFrom_of_decodeAt? hc, Finset.card_insert_of_notMem hnot,
      ih (ByteArray.le_size_of_utf8DecodeChar?_eq_some hc) hrest, List.length_cons]

/-- There is one position more than the text has characters. -/
theorem card_boundariesFrom_toUTF8 (text : String) :
    (boundariesFrom text.toUTF8 0).card = text.length + 1 := by
  have hcs : text.toUTF8.extract 0 text.toUTF8.size = text.toList.utf8Encode := by
    rw [ByteArray.extract_zero_size, String.utf8Encode_toList]
    rfl
  rw [card_boundariesFrom (Nat.zero_le _) hcs, String.length_toList]

end Utf8
end LinearRegex
