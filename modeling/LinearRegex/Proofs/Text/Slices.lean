import LinearRegex.Proofs.Text.Stretch

/-!
# Slices of a text

Between two positions of a text where characters may begin there is a text again, so the text can be
cut there (`Utf8.exists_slice?`).
-/

namespace LinearRegex
namespace Utf8

variable {h : ByteArray} {i j k : Nat}

theorem isBoundary_of_size_le (hsize : h.size ≤ i) : isBoundary h i := by
  rw [isBoundary, getElem?_neg h i (Nat.not_lt.mpr hsize)]

/-- A text begins where a character may begin. -/
theorem isBoundary_zero (hvalid : h.IsValidUTF8) : isBoundary h 0 := by
  have hall : IsText h 0 h.size :=
    .of_isValidUTF8_extract (Nat.zero_le _) (by rwa [ByteArray.extract_zero_size])
  rcases hall.eq_or_isBoundary with hempty | hboundary
  · exact isBoundary_of_size_le (Nat.le_of_eq hempty.symm)
  · exact hboundary

/-- What stands in a text before a position where a character may begin is a text. -/
theorem IsText.head_of_isBoundary (hik : IsText h i k) (hij : i ≤ j) (hjk : j ≤ k)
    (hj : Utf8.isBoundary h j) : IsText h i j := by
  induction hik with
  | refl i => exact Nat.le_antisymm hij hjk ▸ refl _
  | @step i k c hc _ ih =>
    rcases Nat.eq_or_lt_of_le hij with rfl | hlt
    · exact refl _
    · refine step hc (ih (Nat.le_of_not_lt fun hinside => ?_) hjk)
      rw [isBoundary_eq_false_of_decodeAt? hc hlt hinside] at hj
      cases hj

/-- A text is cut out only between positions of the text where characters may begin. -/
theorem bounds_of_slice? {s : String} (hs : slice? h i j = some s) :
    i ≤ j ∧ j ≤ h.size ∧ isBoundary h i ∧ isBoundary h j := by
  unfold slice? at hs
  split at hs
  · next hbounds => exact hbounds
  · cases hs

theorem toUTF8_of_slice? {s : String} (hs : slice? h i j = some s) : s.toUTF8 = h.extract i j := by
  unfold slice? String.fromUTF8? at hs
  split at hs
  · split at hs
    · obtain rfl := Option.some.inj hs
      rfl
    · cases hs
  · cases hs

/-- A text can be cut where characters may begin. -/
theorem exists_slice? (hvalid : h.IsValidUTF8) (hij : i ≤ j) (hsize : j ≤ h.size)
    (hi : isBoundary h i) (hj : isBoundary h j) : ∃ s, slice? h i j = some s := by
  have htext := (IsText.of_isBoundary hvalid (hij.trans hsize) hi).head_of_isBoundary hij hsize hj
  rw [slice?, if_pos ⟨hij, hsize, hi, hj⟩, String.fromUTF8?, dif_pos htext.isValidUTF8_extract]
  exact ⟨_, rfl⟩

/-- Behind some of the characters of a text, a character may begin. -/
theorem isBoundary_append (before rest : String) :
    isBoundary (before ++ rest).toUTF8 before.utf8ByteSize := by
  have hsize : (before ++ rest).toUTF8.size = before.utf8ByteSize + rest.utf8ByteSize :=
    String.utf8ByteSize_append
  have hrest : (before ++ rest).toUTF8.extract before.utf8ByteSize (before ++ rest).toUTF8.size =
      rest.toByteArray := by
    rw [hsize, String.toUTF8_eq_toByteArray, String.toByteArray_append]
    exact ByteArray.extract_append_eq_right rfl rfl
  have htext : IsText (before ++ rest).toUTF8 before.utf8ByteSize
      (before ++ rest).toUTF8.size :=
    .of_isValidUTF8_extract (hsize ▸ Nat.le_add_right _ _) (hrest ▸ rest.isValidUTF8)
  rcases htext.eq_or_isBoundary with hend | hboundary
  · exact isBoundary_of_size_le (Nat.le_of_eq hend.symm)
  · exact hboundary

end Utf8

/-- Behind the first `i` bytes of `h`, `text` follows. -/
def OccursAt (text h : String) (i : Nat) : Prop :=
  ∃ before after, h = before ++ text ++ after ∧ before.utf8ByteSize = i

variable {text h : String} {i : Nat}

theorem OccursAt.append_left (hoccurs : OccursAt text h i) (added : String) :
    OccursAt text (added ++ h) (i + added.utf8ByteSize) := by
  obtain ⟨before, after, rfl, rfl⟩ := hoccurs
  refine ⟨added ++ before, after, ?_, ?_⟩
  · rw [String.append_assoc, String.append_assoc, String.append_assoc]
  · rw [String.utf8ByteSize_append, Nat.add_comm]

/-- Where a text occurs, its bytes are there. -/
theorem OccursAt.extract_eq (hoccurs : OccursAt text h i) :
    h.toUTF8.extract i (i + text.utf8ByteSize) = text.toByteArray := by
  obtain ⟨before, after, rfl, rfl⟩ := hoccurs
  have hrest : (before ++ text ++ after).toUTF8.extract before.utf8ByteSize
      (before.utf8ByteSize + (text ++ after).utf8ByteSize) = (text ++ after).toByteArray := by
    rw [String.append_assoc, String.toUTF8_eq_toByteArray, String.toByteArray_append]
    exact ByteArray.extract_append_eq_right rfl rfl
  have hfront : (text ++ after).toByteArray.extract 0 text.utf8ByteSize = text.toByteArray := by
    rw [String.toByteArray_append]
    exact ByteArray.extract_append_eq_left rfl
  have hle : before.utf8ByteSize + text.utf8ByteSize ≤
      before.utf8ByteSize + (text ++ after).utf8ByteSize := by
    rw [String.utf8ByteSize_append, ← Nat.add_assoc]
    exact Nat.le_add_right _ _
  rw [← hfront, ← hrest, ByteArray.extract_extract, Nat.add_zero, Nat.min_eq_left hle]

/-- What occurs in a text can be cut out there. -/
theorem OccursAt.slice?_eq (hoccurs : OccursAt text h i) :
    Utf8.slice? h.toUTF8 i (i + text.utf8ByteSize) = some text := by
  have hextract := hoccurs.extract_eq
  obtain ⟨before, after, rfl, rfl⟩ := hoccurs
  have hstart : Utf8.isBoundary (before ++ text ++ after).toUTF8 before.utf8ByteSize := by
    rw [String.append_assoc]
    exact Utf8.isBoundary_append before _
  have hstop : Utf8.isBoundary (before ++ text ++ after).toUTF8
      (before.utf8ByteSize + text.utf8ByteSize) := by
    rw [← String.utf8ByteSize_append]
    exact Utf8.isBoundary_append (before ++ text) after
  have hsize : before.utf8ByteSize + text.utf8ByteSize ≤
      (before ++ text ++ after).toUTF8.size := by
    rw [String.toUTF8_eq_toByteArray, ← String.utf8ByteSize, String.utf8ByteSize_append,
      String.utf8ByteSize_append]
    exact Nat.le_add_right _ _
  obtain ⟨s, hs⟩ := Utf8.exists_slice? (h := (before ++ text ++ after).toUTF8)
    (before ++ text ++ after).isValidUTF8 (Nat.le_add_right _ _) hsize hstart hstop
  have hbytes := (Utf8.toUTF8_of_slice? hs).trans hextract
  rw [hs, String.toByteArray_inj.mp hbytes]

end LinearRegex
