import LinearRegex.Look
import LinearRegex.Proofs.Expr.Denotation
import LinearRegex.Proofs.Text.Boundaries

/-!
# Characters by number

The bytes of a text, read at the offset of its character number `n`, are those of this character
(`Utf8.decodeAt?_offset`), and the next one stands right behind it.  So what a haystack spells or
asserts at such an offset can be told from the list of the characters.
-/

namespace LinearRegex
namespace Utf8

/-- The offset of character number `n`, or of the end if there are no more than `n`. -/
def offset (cs : List Char) (n : Nat) : Nat :=
  length (cs.take n)

variable {cs : List Char} {n j : Nat} {c d : Char}

theorem size_utf8Encode (cs : List Char) : cs.utf8Encode.size = length cs := by
  induction cs with
  | nil => rfl
  | cons c cs ih =>
    rw [List.utf8Encode_cons, ByteArray.size_append, ih, List.utf8Encode_singleton,
      List.size_toByteArray, String.length_utf8EncodeChar, length_cons]

theorem offset_zero (cs : List Char) : offset cs 0 = 0 :=
  rfl

theorem offset_of_length_le (hn : cs.length ≤ n) : offset cs n = cs.utf8Encode.size := by
  rw [offset, List.take_of_length_le hn, size_utf8Encode]

theorem offset_succ (hc : cs[n]? = some c) : offset cs (n + 1) = offset cs n + c.utf8Size := by
  rw [offset, List.take_add_one, hc, length_append]
  rfl

/-- What follows the first `n` characters is the text of the others. -/
theorem extract_offset (cs : List Char) (n : Nat) :
    cs.utf8Encode.extract (offset cs n) cs.utf8Encode.size = (cs.drop n).utf8Encode := by
  have hsplit : cs.utf8Encode = (cs.take n).utf8Encode ++ (cs.drop n).utf8Encode := by
    rw [← List.utf8Encode_append, List.take_append_drop]
  rw [offset, ← size_utf8Encode, hsplit]
  exact ByteArray.extract_append_eq_right rfl ByteArray.size_append

theorem decodeAt?_offset (cs : List Char) (n : Nat) :
    decodeAt? cs.utf8Encode (offset cs n) = cs[n]? := by
  cases hc : cs[n]? with
  | none => rw [offset_of_length_le (List.getElem?_eq_none_iff.mp hc), decodeAt?_size]
  | some c =>
    have hdrop : cs.drop n = c :: cs.drop (n + 1) := by
      obtain ⟨hlt, rfl⟩ := List.getElem?_eq_some_iff.mp hc
      exact List.drop_eq_getElem_cons hlt
    have hextract := extract_offset cs n
    rw [hdrop] at hextract
    exact (decodeAt?_of_extract_eq hextract).1

theorem spells_encode_offset_iff :
    Spells cs.utf8Encode (encode d) (offset cs n) j ↔ cs[n]? = some d ∧ j = offset cs (n + 1) := by
  rw [spells_encode_iff, ← decodeAt?_eq_some_iff, decodeAt?_offset, encode,
    String.length_utf8EncodeChar]
  constructor
  · rintro ⟨hd, rfl⟩
    exact ⟨hd, (offset_succ hd).symm⟩
  · rintro ⟨hd, rfl⟩
    exact ⟨hd, (offset_succ hd).symm⟩

/-! ## What assertions see -/

theorem offset_lt_offset_succ (hn : n < cs.length) : offset cs n < offset cs (n + 1) := by
  rw [offset_succ (List.getElem?_eq_getElem hn)]
  exact Nat.lt_add_of_pos_right (Char.utf8Size_pos _)

theorem offset_eq_zero_iff (hn : n ≤ cs.length) : offset cs n = 0 ↔ n = 0 := by
  constructor
  · intro hzero
    cases n with
    | zero => rfl
    | succ n =>
      have hlt := offset_lt_offset_succ hn
      rw [hzero] at hlt
      exact absurd hlt (Nat.not_lt_zero _)
  · rintro rfl
    exact offset_zero cs

theorem offset_eq_size_iff (hn : n ≤ cs.length) :
    offset cs n = cs.utf8Encode.size ↔ n = cs.length := by
  constructor
  · intro hsize
    by_contra hne
    have hlt : n < cs.length := Nat.lt_of_le_of_ne hn hne
    have hnone := decodeAt?_offset cs n
    rw [hsize, decodeAt?_size, List.getElem?_eq_getElem hlt] at hnone
    cases hnone
  · rintro rfl
    exact offset_of_length_le (Nat.le_refl _)

theorem getElem?_offset_eq_newline_iff (cs : List Char) (n : Nat) :
    cs.utf8Encode[offset cs n]? = some 0x0A ↔ cs[n]? = some '\n' := by
  have hencode : encode '\n' = [0x0A] := by decide
  have hspells : cs.utf8Encode[offset cs n]? = some 0x0A ↔
      Spells cs.utf8Encode (encode '\n') (offset cs n) (offset cs n + 1) := by
    rw [hencode, Spells, Spells, and_iff_left rfl]
  rw [hspells, spells_encode_offset_iff, and_iff_left_iff_imp]
  intro hc
  exact (offset_succ hc).symm

/-- The last byte of a character is a newline only if it is the first one too. -/
theorem byteBefore?_offset_eq_newline_iff (hc : cs[n]? = some c) :
    Look.byteBefore? cs.utf8Encode (offset cs (n + 1)) = some 0x0A ↔ c = '\n' := by
  have hpos := c.utf8Size_pos
  have hsucc := offset_succ hc
  have hnewline := getElem?_offset_eq_newline_iff cs n
  rw [hc, Option.some.injEq] at hnewline
  rw [Look.byteBefore?, if_neg (by omega), ← hnewline]
  by_cases hsize : c.utf8Size = 1
  · rw [hsucc, hsize, Nat.add_sub_cancel]
  · have hinside : isBoundary cs.utf8Encode (offset cs (n + 1) - 1) = false :=
      isBoundary_eq_false_of_decodeAt? (decodeAt?_offset cs n |>.trans hc) (by omega) (by omega)
    apply iff_of_false
    · intro hbyte
      rw [isBoundary, hbyte] at hinside
      revert hinside
      decide
    · intro hbyte
      have hone : c = '\n' := hnewline.mp hbyte
      rw [hone] at hsize
      exact hsize rfl

end Utf8
end LinearRegex
