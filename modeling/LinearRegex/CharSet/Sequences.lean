import LinearRegex.CharSet.Basic
import LinearRegex.Text.Utf8

/-!
# Byte sequences of a range of characters

The encodings of a range of characters are those of a few sequences of byte ranges.  To find the
sequences, the range is cut: at the surrogates, where the length of an encoding changes, and where
the last bytes do not run through all their values.  A range that is cut nowhere is one sequence,
from the bytes of its first character to those of its last.
-/

namespace LinearRegex

/-- The bytes from `lo` to `hi`, both included. -/
structure ByteRange where
  lo : UInt8
  hi : UInt8
deriving DecidableEq

namespace CharRange

/-- The last code point whose encoding has one, two or three bytes. -/
def lengthLimits : List Nat := [0x7F, 0x7FF, 0xFFFF]

/-- The numbers of code points that share all but the last one, two or three bytes. -/
def blockSizes : List Nat := [0x40, 0x1000, 0x40000]

/-- Where the codes from `lo` to `hi` leave a block of `size` codes: behind the first block if they
begin inside it, or else before the last block if they end inside it. -/
def blockCut? (lo hi size : Nat) : Option (Nat × Nat) :=
  if lo / size = hi / size then none
  else if lo % size ≠ 0 then some ((lo / size + 1) * size - 1, (lo / size + 1) * size)
  else if hi % size ≠ size - 1 then some (hi / size * size - 1, hi / size * size)
  else none

/-- Where to cut the codes from `lo` to `hi`: the last code of the first part and the first code of
the second part. -/
def cut? (lo hi : Nat) : Option (Nat × Nat) :=
  if lo ≤ 0xD7FF ∧ 0xE000 ≤ hi then some (0xD7FF, 0xE000)
  else
    match lengthLimits.find? fun limit => lo ≤ limit && limit < hi with
    | some limit => some (limit, limit + 1)
    | none => if hi ≤ 0x7F then none else blockSizes.findSome? (blockCut? lo hi)

theorem blockCut?_bounds {lo hi size a b : Nat} (hsize : 0 < size) (hle : lo ≤ hi)
    (h : blockCut? lo hi size = some (a, b)) : lo ≤ a ∧ a < b ∧ b ≤ hi := by
  have hlo := Nat.div_add_mod lo size
  have hhi := Nat.div_add_mod hi size
  have hlolt := Nat.mod_lt lo hsize
  have hdiv : lo / size ≤ hi / size := Nat.div_le_div_right hle
  unfold blockCut? at h
  split at h
  · cases h
  · next hne =>
    have hsucc : lo / size + 1 ≤ hi / size := by omega
    have hmul : (lo / size + 1) * size ≤ hi / size * size := Nat.mul_le_mul_right size hsucc
    rw [Nat.add_mul, Nat.one_mul] at hmul
    rw [Nat.mul_comm] at hlo hhi
    split at h
    · simp only [Option.some.injEq, Prod.mk.injEq] at h
      rw [Nat.add_mul, Nat.one_mul] at h
      omega
    · split at h
      · simp only [Option.some.injEq, Prod.mk.injEq] at h
        omega
      · cases h

theorem cut?_bounds {lo hi a b : Nat} (hle : lo ≤ hi) (h : cut? lo hi = some (a, b)) :
    lo ≤ a ∧ a < b ∧ b ≤ hi := by
  unfold cut? at h
  split at h
  · simp only [Option.some.injEq, Prod.mk.injEq] at h
    omega
  · split at h
    · next limit hlimit =>
      have := List.find?_some hlimit
      simp only [Bool.and_eq_true, decide_eq_true_eq] at this
      simp only [Option.some.injEq, Prod.mk.injEq] at h
      omega
    · split at h
      · cases h
      · obtain ⟨size, hmem, hcut⟩ := List.exists_of_findSome?_eq_some h
        refine blockCut?_bounds ?_ hle hcut
        simp only [blockSizes, List.mem_cons, List.not_mem_nil, or_false] at hmem
        omega

/-- The byte ranges from the encoding of one code to that of another. -/
def sequence (lo hi : Nat) : List ByteRange :=
  List.zipWith ByteRange.mk (Utf8.encode (Char.ofNat lo)) (Utf8.encode (Char.ofNat hi))

/-- The sequences of the codes from `lo` to `hi`, in ascending order. -/
def sequencesBetween (lo hi : Nat) (hle : lo ≤ hi) : List (List ByteRange) :=
  match hcut : cut? lo hi with
  | none => [sequence lo hi]
  | some (a, b) =>
    sequencesBetween lo a (cut?_bounds hle hcut).1 ++
      sequencesBetween b hi (cut?_bounds hle hcut).2.2
termination_by hi - lo
decreasing_by
  all_goals have := cut?_bounds hle hcut; omega

/-- The sequences of byte ranges that encode the characters of a range, in ascending order. -/
def sequences (r : CharRange) : List (List ByteRange) :=
  sequencesBetween r.lo.toNat r.hi.toNat r.lo_le_hi

end CharRange

/-- The sequences of byte ranges that encode the characters of a set. -/
def CharSet.sequences (s : CharSet) : List (List ByteRange) :=
  s.ranges.flatMap CharRange.sequences

end LinearRegex
