import LinearRegex.Proofs.CharSet.Encoding

/-!
# Text in a haystack

A haystack need not be valid UTF-8, but stretches of it may be: those on which characters stand one
after the other (`Utf8.IsText`).  The haystack says which characters these are, so of two such
stretches from one position the longer one goes on as text where the shorter one ends
(`Utf8.IsText.tail_of_le`).  In a haystack that is valid UTF-8, text that begins where a character
may begin also ends where one may begin (`Utf8.IsText.isBoundary`).
-/

namespace LinearRegex

open LiteralPrefix (bytesAt)

namespace Utf8

/-- Characters stand one after the other from `i` to `j`. -/
inductive IsText (h : ByteArray) : (i j : Nat) → Prop
  | refl (i : Nat) : IsText h i i
  | step {i j : Nat} {c : Char} (hc : decodeAt? h i = some c)
      (hrest : IsText h (i + c.utf8Size) j) : IsText h i j

variable {h : ByteArray} {i j k : Nat} {c : Char}

/-! ## Inside a character -/

theorem isContinuation_of_mem_tail_bytesOf {lead more code : Nat} :
    ∀ b ∈ (bytesOf lead more code).tail, isContinuation b := by
  induction more generalizing code with
  | zero => exact List.forall_mem_nil _
  | succ more ih =>
    have hne : bytesOf lead more (code / 64) ≠ [] :=
      List.ne_nil_of_length_pos (by rw [length_bytesOf]; exact Nat.succ_pos more)
    have hlast : ∀ digit : Fin 64, isContinuation (.ofNat (0x80 + digit)) := by decide
    rw [bytesOf, List.tail_append_of_ne_nil hne]
    refine List.forall_mem_append.mpr ⟨ih, List.forall_mem_singleton.mpr ?_⟩
    exact hlast ⟨code % 64, Nat.mod_lt code (by decide)⟩

theorem isBoundary_eq_false_of_bytesAt {bs : List UInt8} (hbytes : bytesAt h i bs)
    (hbs : ∀ b ∈ bs, isContinuation b) (hik : i ≤ k) (hk : k < i + bs.length) :
    isBoundary h k = false := by
  induction bs generalizing i with
  | nil => exact absurd hk (Nat.not_lt.mpr hik)
  | cons b bs ih =>
    rw [bytesAt, Bool.and_eq_true, beq_iff_eq] at hbytes
    obtain ⟨hb, hbs⟩ := List.forall_mem_cons.mp hbs
    rcases Nat.eq_or_lt_of_le hik with rfl | hlt
    · simp only [isBoundary, hbytes.1, hb, Bool.not_true]
    · rw [List.length_cons] at hk
      exact ih hbytes.2 hbs hlt (by omega)

/-- No character begins inside another one. -/
theorem isBoundary_eq_false_of_decodeAt? (hc : decodeAt? h i = some c) (hik : i < k)
    (hk : k < i + c.utf8Size) : isBoundary h k = false := by
  have hbytes := decodeAt?_eq_some_iff.mp hc
  have hlength : (encode c).length = c.utf8Size := String.length_utf8EncodeChar c
  have htail : ∀ b ∈ (encode c).tail, isContinuation b := by
    rw [encode_eq_bytesOf]
    exact isContinuation_of_mem_tail_bytesOf
  obtain ⟨b, bs, heq, -⟩ := exists_encode_eq_cons c
  rw [heq, bytesAt, Bool.and_eq_true] at hbytes
  rw [heq, List.tail_cons] at htail
  rw [heq, List.length_cons] at hlength
  exact isBoundary_eq_false_of_bytesAt hbytes.2 htail hik (by omega)

theorem isBoundary_of_decodeAt? (hc : decodeAt? h i = some c) : isBoundary h i := by
  have hbytes := decodeAt?_eq_some_iff.mp hc
  obtain ⟨b, bs, heq, hfirst⟩ := exists_encode_eq_cons c
  rw [heq, bytesAt, Bool.and_eq_true, beq_iff_eq] at hbytes
  simp only [isBoundary, hbytes.1, hfirst, Bool.not_false]

theorem extract_of_decodeAt? (hc : decodeAt? h i = some c) :
    h.extract i (i + c.utf8Size) = (encode c).toByteArray := by
  have hsize := ByteArray.le_size_of_utf8DecodeChar?_eq_some hc
  rw [decodeAt?, ByteArray.utf8DecodeChar?_eq_utf8DecodeChar?_extract] at hc
  rw [encode, String.toByteArray_utf8EncodeChar_of_utf8DecodeChar?_eq_some hc,
    ByteArray.extract_extract, Nat.add_zero, Nat.min_eq_left hsize]

/-- Bytes that encode characters begin with the first of them, and the others follow. -/
theorem decodeAt?_of_extract_eq {cs : List Char}
    (hcs : h.extract i h.size = (c :: cs).utf8Encode) :
    decodeAt? h i = some c ∧ h.extract (i + c.utf8Size) h.size = cs.utf8Encode := by
  have hc : decodeAt? h i = some c := by
    rw [decodeAt?, ByteArray.utf8DecodeChar?_eq_utf8DecodeChar?_extract, hcs]
    exact List.utf8DecodeChar?_utf8Encode_cons
  refine ⟨hc, ?_⟩
  rw [List.utf8Encode_cons, List.utf8Encode_singleton,
    ByteArray.extract_eq_extract_append_extract _ (Nat.le_add_right i c.utf8Size)
      (ByteArray.le_size_of_utf8DecodeChar?_eq_some hc), extract_of_decodeAt? hc] at hcs
  exact (ByteArray.append_right_inj _).mp hcs

namespace IsText

theorem single (hc : decodeAt? h i = some c) : IsText h i (i + c.utf8Size) :=
  step hc (refl _)

theorem trans (hij : IsText h i j) (hjk : IsText h j k) : IsText h i k := by
  induction hij with
  | refl => exact hjk
  | step hc _ ih => exact step hc (ih hjk)

theorem le (hij : IsText h i j) : i ≤ j := by
  induction hij with
  | refl => exact Nat.le_refl _
  | step _ _ ih => exact Nat.le_trans (Nat.le_add_right _ _) ih

theorem le_size (hij : IsText h i j) (hi : i ≤ h.size) : j ≤ h.size := by
  induction hij with
  | refl => exact hi
  | step hc _ ih => exact ih (ByteArray.le_size_of_utf8DecodeChar?_eq_some hc)

/-- The bytes of a text are valid UTF-8. -/
theorem isValidUTF8_extract (hij : IsText h i j) : (h.extract i j).IsValidUTF8 := by
  induction hij with
  | refl =>
    rw [ByteArray.extract_same]
    exact ByteArray.isValidUTF8_empty
  | step hc hrest ih =>
    rw [ByteArray.extract_eq_extract_append_extract _ (Nat.le_add_right _ _) hrest.le,
      extract_of_decodeAt? hc]
    exact Char.isValidUTF8_toByteArray_utf8EncodeChar.append ih

/-- Behind the shorter one of two texts from one position, the longer one is still a text. -/
theorem tail_of_le (hij : IsText h i j) (hik : IsText h i k) (hle : j ≤ k) : IsText h j k := by
  induction hij with
  | refl => exact hik
  | step hc hrest ih =>
    cases hik with
    | refl =>
      exact absurd (Nat.le_trans hrest.le hle)
        (Nat.not_le.mpr (Nat.lt_add_of_pos_right (Char.utf8Size_pos _)))
    | step hc' hrest' =>
      obtain rfl := Option.some.inj (hc.symm.trans hc')
      exact ih hrest' hle

/-- What is left of a text from where a character may begin is a text. -/
theorem tail_of_isBoundary (hik : IsText h i k) (hij : i ≤ j) (hjk : j ≤ k)
    (hj : isBoundary h j) : IsText h j k := by
  induction hik with
  | refl => exact Nat.le_antisymm hij hjk ▸ refl _
  | @step i k c hc hrest ih =>
    rcases Nat.eq_or_lt_of_le hij with rfl | hlt
    · exact step hc hrest
    · refine ih (Nat.le_of_not_lt fun hinside => ?_) hjk
      rw [isBoundary_eq_false_of_decodeAt? hc hlt hinside] at hj
      cases hj

/-- A text that is not empty begins where a character may. -/
theorem eq_or_isBoundary (hij : IsText h i j) : i = j ∨ isBoundary h i := by
  cases hij with
  | refl => exact Or.inl rfl
  | step hc _ => exact Or.inr (isBoundary_of_decodeAt? hc)

/-- What is left of a haystack is a text if it is valid UTF-8. -/
theorem of_isValidUTF8_extract (hi : i ≤ h.size) (hvalid : (h.extract i h.size).IsValidUTF8) :
    IsText h i h.size := by
  obtain ⟨cs, hcs⟩ := hvalid
  induction cs generalizing i with
  | nil =>
    have hsize := congrArg ByteArray.size hcs
    rw [ByteArray.size_extract, List.utf8Encode_nil, ByteArray.size_empty] at hsize
    obtain rfl : i = h.size := by omega
    exact refl _
  | cons c cs ih =>
    obtain ⟨hc, hrest⟩ := decodeAt?_of_extract_eq hcs
    exact step hc (ih (ByteArray.le_size_of_utf8DecodeChar?_eq_some hc) hrest)

/-- What is left of valid UTF-8 from where a character may begin is a text. -/
theorem of_isBoundary (hvalid : h.IsValidUTF8) (hsize : i ≤ h.size) (hi : Utf8.isBoundary h i) :
    IsText h i h.size := by
  have hall : IsText h 0 h.size :=
    of_isValidUTF8_extract (Nat.zero_le _) (by rwa [ByteArray.extract_zero_size])
  exact hall.tail_of_isBoundary (Nat.zero_le i) hsize hi

/-- In valid UTF-8, a text that begins where a character may begin ends where one may begin. -/
theorem isBoundary (hij : IsText h i j) (hvalid : h.IsValidUTF8) (hsize : i ≤ h.size)
    (hi : Utf8.isBoundary h i) : Utf8.isBoundary h j := by
  have hrest := of_isBoundary hvalid hsize hi
  rcases (hij.tail_of_le hrest (hij.le_size hsize)).eq_or_isBoundary with rfl | hj
  · rw [Utf8.isBoundary, getElem?_neg h h.size (Nat.lt_irrefl _)]
  · exact hj

end IsText

end Utf8
end LinearRegex
