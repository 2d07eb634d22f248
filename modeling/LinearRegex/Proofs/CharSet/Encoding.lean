import LinearRegex.Proofs.CharSet.Order
import LinearRegex.Proofs.Program.Summary
import LinearRegex.Program.ByteTrie

/-!
# The encodings of the characters of a set

The byte sequences of a set stand at a position just where the encoding of one of its characters
does (`fitsAt_sequences`), and they ascend as the ranges of the set do
(`pairwise_isBefore_sequences`).
The encoding of a code point is its number in base 64, so both come down to what a range that is cut
nowhere looks like digit by digit (`IsUncut`).
-/

namespace LinearRegex

open LiteralPrefix (bytesAt)

/-- The bytes stand at `pos` if what is left from there begins with them. -/
theorem bytesAt_iff_extract {h : ByteArray} {bs : List UInt8} {pos : Nat} :
    bytesAt h pos bs ↔ pos ≤ h.size ∧ ∃ rest, h.extract pos h.size = bs.toByteArray ++ rest := by
  have hbegins : bytesAt h pos bs ↔ pos ≤ h.size ∧ ∃ rest, h.data.toList.drop pos = bs ++ rest := by
    induction bs generalizing pos with
    | nil => simp [bytesAt]
    | cons b bs ih =>
      rw [bytesAt, Bool.and_eq_true, beq_iff_eq, ih]
      by_cases hpos : pos < h.size
      · have hdrop : h.data.toList.drop pos = h[pos] :: h.data.toList.drop (pos + 1) :=
          List.drop_eq_getElem_cons (by simpa using hpos)
        rw [hdrop, getElem?_pos h pos hpos]
        simp [Nat.le_of_lt hpos, Nat.succ_le_of_lt hpos]
      · rw [getElem?_neg h pos hpos]
        refine iff_of_false (by simp) ?_
        rintro ⟨-, rest, hrest⟩
        rw [List.drop_eq_nil_of_le (by simpa using hpos)] at hrest
        cases hrest
  rw [hbegins]
  refine and_congr_right fun hpos => ?_
  have hlist : ∀ {t : ByteArray}, h.extract pos h.size = t ↔
      h.data.toList.drop pos = t.data.toList := by
    intro t
    have htake : (h.data.toList.drop pos).take (h.size - pos) = h.data.toList.drop pos :=
      List.take_of_length_le (by simp)
    rw [ByteArray.ext_iff, ← Array.toList_inj]
    simp [htake]
  constructor
  · rintro ⟨rest, hrest⟩
    exact ⟨rest.toByteArray, by rw [hlist, hrest]; simp⟩
  · rintro ⟨rest, hrest⟩
    exact ⟨rest.data.toList, by rw [hlist.mp hrest]; simp⟩

namespace Utf8

/-- The bytes of a code point: the first one, to which `lead` is added, and `more` others. -/
def bytesOf (lead : Nat) : (more code : Nat) → List UInt8
  | 0, code => [.ofNat (lead + code)]
  | more + 1, code => bytesOf lead more (code / 64) ++ [.ofNat (0x80 + code % 64)]

/-- The number of bytes behind the first one. -/
def following (code : Nat) : Nat :=
  if code ≤ 0x7F then 0 else if code ≤ 0x7FF then 1 else if code ≤ 0xFFFF then 2 else 3

/-- What the first byte shows of the number of bytes that follow it. -/
def leadOf : Nat → Nat
  | 0 => 0
  | 1 => 0xC0
  | 2 => 0xE0
  | _ => 0xF0

theorem length_bytesOf (lead more code : Nat) : (bytesOf lead more code).length = more + 1 := by
  induction more generalizing code with
  | zero => rfl
  | succ more ih => rw [bytesOf, List.length_append, ih, List.length_singleton]

theorem encode_eq_bytesOf (c : Char) :
    encode c = bytesOf (leadOf (following c.toNat)) (following c.toNat) c.toNat := by
  have hvalid := CharSet.isValidChar_toNat c
  unfold Nat.isValidChar at hvalid
  have htoNat : c.val.toNat = c.toNat := rfl
  unfold encode String.utf8EncodeChar following
  simp only [htoNat]
  split
  · rw [bytesOf, leadOf, Nat.zero_add]
  · split
    · have hfirst : c.toNat / 64 % 32 = c.toNat / 64 := Nat.mod_eq_of_lt (by omega)
      simp only [bytesOf, leadOf, List.singleton_append, hfirst, Nat.add_comm]
    · split
      · have hfirst : c.toNat / 4096 % 16 = c.toNat / 64 / 64 := by omega
        simp only [bytesOf, leadOf, List.cons_append, List.nil_append, hfirst, Nat.add_comm]
      · have hfirst : c.toNat / 262144 % 8 = c.toNat / 64 / 64 / 64 := by omega
        have hsecond : c.toNat / 4096 = c.toNat / 64 / 64 := by omega
        simp only [bytesOf, leadOf, List.cons_append, List.nil_append, hfirst, hsecond,
          Nat.add_comm]

/-- The encoding of a character begins with a byte that continues none. -/
theorem exists_encode_eq_cons (c : Char) :
    ∃ b bs, encode c = b :: bs ∧ isContinuation b = false := by
  have hpos : 0 < (encode c).length := by
    rw [encode_eq_bytesOf, length_bytesOf]
    exact Nat.succ_pos _
  have hfirst : (encode c)[0].IsUTF8FirstByte :=
    UInt8.isUTF8FirstByte_getElem_utf8EncodeChar.mpr rfl
  obtain ⟨b, bs, hbs⟩ := List.exists_cons_of_ne_nil (List.ne_nil_of_length_pos hpos)
  simp only [hbs, List.getElem_cons_zero] at hfirst
  refine ⟨b, bs, hbs, ?_⟩
  rw [isContinuation, beq_eq_false_iff_ne]
  intro hcontinues
  have hmask : ∀ m : UInt8, 0xC0 &&& m = m → b &&& m = 0x80 &&& m := by
    intro m hm
    rw [← hcontinues, UInt8.and_assoc, hm]
  have hlead : ∀ m v : UInt8, m &&& 0xC0 = 0xC0 → b &&& m = v → v &&& 0xC0 = 0x80 := by
    intro m v hm hv
    rw [← hv, UInt8.and_assoc, hm, hcontinues]
  rcases hfirst with h | h | h | h
  · rw [hmask 0x80 (by decide)] at h
    exact absurd h (by decide)
  · exact absurd (hlead _ _ (by decide) h) (by decide)
  · exact absurd (hlead _ _ (by decide) h) (by decide)
  · exact absurd (hlead _ _ (by decide) h) (by decide)

/-- A character is read where its encoding stands. -/
theorem decodeAt?_eq_some_iff {h : ByteArray} {pos : Nat} {c : Char} :
    decodeAt? h pos = some c ↔ bytesAt h pos (encode c) := by
  rw [bytesAt_iff_extract, decodeAt?]
  constructor
  · intro hc
    have hsize := ByteArray.le_size_of_utf8DecodeChar?_eq_some hc
    rw [ByteArray.utf8DecodeChar?_eq_utf8DecodeChar?_extract] at hc
    exact ⟨by omega, ByteArray.exists_of_utf8DecodeChar?_eq_some hc⟩
  · rintro ⟨-, rest, hrest⟩
    rw [ByteArray.utf8DecodeChar?_eq_utf8DecodeChar?_extract, hrest]
    exact ByteArray.utf8DecodeChar?_utf8EncodeChar_append

end Utf8

/-! ## One byte after the other -/

namespace ByteRange

/-- The byte lies in the range. -/
def Contains (r : ByteRange) (b : UInt8) : Prop :=
  r.lo ≤ b ∧ b ≤ r.hi

/-- Bytes from the given ranges stand in `h` from `pos` on. -/
def FitsAt (h : ByteArray) (pos : Nat) : List ByteRange → Prop
  | [] => pos ≤ h.size
  | r :: rs => (∃ b, h[pos]? = some b ∧ r.Contains b) ∧ FitsAt h (pos + 1) rs

/-- Of two sequences of byte ranges, the first has the lesser bytes where they part. -/
inductive IsBefore : List ByteRange → List ByteRange → Prop
  | head {r s : ByteRange} {rs ss : List ByteRange} (h : r.hi < s.lo) : IsBefore (r :: rs) (s :: ss)
  | tail {r : ByteRange} {rs ss : List ByteRange} (h : IsBefore rs ss) :
      IsBefore (r :: rs) (r :: ss)

variable {h : ByteArray} {pos : Nat}

theorem le_size_of_fitsAt {rs : List ByteRange} (hfits : FitsAt h pos rs) : pos ≤ h.size := by
  cases rs with
  | nil => exact hfits
  | cons r rs =>
    obtain ⟨⟨b, hb, -⟩, -⟩ := hfits
    exact Nat.le_of_lt (LiteralPrefix.lt_size_of_byte hb)

theorem fitsAt_append {rs ss : List ByteRange} :
    FitsAt h pos (rs ++ ss) ↔ FitsAt h pos rs ∧ FitsAt h (pos + rs.length) ss := by
  induction rs generalizing pos with
  | nil => exact (and_iff_right_of_imp le_size_of_fitsAt).symm
  | cons r rs ih =>
    rw [List.cons_append, FitsAt, FitsAt, ih, and_assoc, List.length_cons, Nat.add_right_comm,
      Nat.add_assoc pos]

theorem fitsAt_singleton {r : ByteRange} :
    FitsAt h pos [r] ↔ ∃ b, h[pos]? = some b ∧ r.Contains b := by
  exact and_iff_left_of_imp fun ⟨b, hb, _⟩ => LiteralPrefix.lt_size_of_byte hb

theorem IsBefore.append {rs ss : List ByteRange} (hbefore : IsBefore rs ss)
    (rs' ss' : List ByteRange) : IsBefore (rs ++ rs') (ss ++ ss') := by
  induction hbefore with
  | head hlt => exact .head hlt
  | tail _ ih => exact .tail ih

theorem IsBefore.append_left {rs ss : List ByteRange} (hbefore : IsBefore rs ss)
    (ts : List ByteRange) : IsBefore (ts ++ rs) (ts ++ ss) := by
  induction ts with
  | nil => exact hbefore
  | cons t ts ih => exact .tail ih

/-- The byte ranges from the bytes of one code point to those of another. -/
def between (lead more lo hi : Nat) : List ByteRange :=
  List.zipWith mk (Utf8.bytesOf lead more lo) (Utf8.bytesOf lead more hi)

/-- In every digit behind the first, either the codes from `lo` to `hi` agree in front of it or it
runs through all its values. -/
def IsUncut : (more lo hi : Nat) → Prop
  | 0, _, _ => True
  | more + 1, lo, hi =>
    (lo / 64 = hi / 64 ∨ lo % 64 = 0 ∧ hi % 64 = 63) ∧ IsUncut more (lo / 64) (hi / 64)

theorem between_succ (lead more lo hi : Nat) :
    between lead (more + 1) lo hi =
      between lead more (lo / 64) (hi / 64) ++
        [⟨.ofNat (0x80 + lo % 64), .ofNat (0x80 + hi % 64)⟩] := by
  rw [between, Utf8.bytesOf, Utf8.bytesOf, List.zipWith_append]
  · rfl
  · rw [Utf8.length_bytesOf, Utf8.length_bytesOf]

theorem length_between (lead more lo hi : Nat) :
    (between lead more lo hi).length = more + 1 := by
  rw [between, List.length_zipWith, Utf8.length_bytesOf, Utf8.length_bytesOf, Nat.min_self]

theorem exists_between_eq_cons (lead more lo hi : Nat) :
    ∃ rs, between lead more lo hi =
      ⟨.ofNat (lead + lo / 64 ^ more), .ofNat (lead + hi / 64 ^ more)⟩ :: rs := by
  induction more generalizing lo hi with
  | zero => exact ⟨[], by simp [between, Utf8.bytesOf]⟩
  | succ more ih =>
    obtain ⟨rs, hrs⟩ := ih (lo / 64) (hi / 64)
    rw [Nat.div_div_eq_div_mul, Nat.div_div_eq_div_mul, ← Nat.pow_succ'] at hrs
    rw [between_succ, hrs]
    exact ⟨_, List.cons_append⟩

theorem toNat_byte {n : Nat} (h : n < 256) : (UInt8.ofNat n).toNat = n := by
  rw [UInt8.toNat_ofNat']
  exact Nat.mod_eq_of_lt h

theorem byte_lt_byte {m n : Nat} (hlt : m < n) (hn : n < 256) : UInt8.ofNat m < UInt8.ofNat n := by
  rwa [UInt8.lt_iff_toNat_lt, toNat_byte hn, toNat_byte (Nat.lt_trans hlt hn)]

theorem byte_le_byte {m n : Nat} (hle : m ≤ n) (hn : n < 256) : UInt8.ofNat m ≤ UInt8.ofNat n := by
  rwa [UInt8.le_iff_toNat_le, toNat_byte hn, toNat_byte (Nat.lt_of_le_of_lt hle hn)]

theorem contains_ofNat {lo hi : Nat} (hle : lo ≤ hi) (hhi : hi < 256) (b : UInt8) :
    (mk (.ofNat lo) (.ofNat hi)).Contains b ↔ lo ≤ b.toNat ∧ b.toNat ≤ hi := by
  simp only [Contains, UInt8.le_iff_toNat_le, toNat_byte hhi,
    toNat_byte (Nat.lt_of_le_of_lt hle hhi)]

/-- Codes that are cut nowhere are told apart digit by digit. -/
theorem fitsAt_between {lead more lo hi : Nat} (hle : lo ≤ hi)
    (hlead : lead + hi / 64 ^ more < 256) (huncut : IsUncut more lo hi) :
    FitsAt h pos (between lead more lo hi) ↔
      ∃ code, (lo ≤ code ∧ code ≤ hi) ∧ bytesAt h pos (Utf8.bytesOf lead more code) := by
  induction more generalizing lo hi with
  | zero =>
    rw [Nat.pow_zero, Nat.div_one] at hlead
    have hcontains := contains_ofNat (Nat.add_le_add_left hle lead) hlead
    simp only [between, Utf8.bytesOf, List.zipWith_cons_cons, List.zipWith_nil_left,
      fitsAt_singleton, LiteralPrefix.bytesAt_singleton, hcontains]
    constructor
    · rintro ⟨b, hb, hbounds⟩
      refine ⟨b.toNat - lead, by omega, ?_⟩
      rw [Nat.add_sub_cancel' (by omega), UInt8.ofNat_toNat, hb]
    · rintro ⟨code, hbounds, hcode⟩
      refine ⟨_, hcode, ?_⟩
      rw [toNat_byte (show lead + code < 256 by omega)]
      omega
  | succ more ih =>
    obtain ⟨hblock, huncut⟩ := huncut
    rw [Nat.pow_succ', ← Nat.div_div_eq_div_mul] at hlead
    have hdigit : lo % 64 ≤ hi % 64 ∨ lo / 64 = hi / 64 := by omega
    have hdigits : 0x80 + lo % 64 ≤ 0x80 + hi % 64 := by omega
    have hcontains := contains_ofNat hdigits (show 0x80 + hi % 64 < 256 by omega)
    simp only [between_succ, Utf8.bytesOf, fitsAt_append, fitsAt_singleton, length_between,
      LiteralPrefix.bytesAt_append, LiteralPrefix.bytesAt_singleton, Utf8.length_bytesOf, hcontains,
      ih (Nat.div_le_div_right hle) hlead huncut]
    constructor
    · rintro ⟨⟨code, hcode, hbytes⟩, b, hb, hbounds⟩
      have hdiv : (64 * code + (b.toNat - 0x80)) / 64 = code := by omega
      have hmod : 0x80 + (64 * code + (b.toNat - 0x80)) % 64 = b.toNat := by omega
      refine ⟨64 * code + (b.toNat - 0x80), by omega, ?_⟩
      rw [hdiv, hmod, UInt8.ofNat_toNat]
      exact ⟨hbytes, hb⟩
    · rintro ⟨code, hcode, hbytes, hlast⟩
      refine ⟨⟨code / 64, by omega, hbytes⟩, _, hlast, ?_⟩
      rw [toNat_byte (show 0x80 + code % 64 < 256 by omega)]
      omega

theorem lo_le_hi_of_mem_between {lead more lo hi : Nat} (hle : lo ≤ hi)
    (hlead : lead + hi / 64 ^ more < 256) (huncut : IsUncut more lo hi) {r : ByteRange}
    (hr : r ∈ between lead more lo hi) : r.lo ≤ r.hi := by
  induction more generalizing lo hi with
  | zero =>
    rw [Nat.pow_zero, Nat.div_one] at hlead
    obtain rfl := List.mem_singleton.mp hr
    exact byte_le_byte (by omega) hlead
  | succ more ih =>
    obtain ⟨hblock, huncut⟩ := huncut
    rw [Nat.pow_succ', ← Nat.div_div_eq_div_mul] at hlead
    rw [between_succ] at hr
    rcases List.mem_append.mp hr with hr | hr
    · exact ih (Nat.div_le_div_right hle) hlead huncut hr
    · obtain rfl := List.mem_singleton.mp hr
      exact byte_le_byte (by omega) (by omega)

/-- Of codes that are cut nowhere the lesser ones have the lesser bytes. -/
theorem isBefore_between {lead more lo hi lo' hi' : Nat} (hle : lo ≤ hi) (hlt : hi < lo')
    (hle' : lo' ≤ hi') (hlead : lead + hi' / 64 ^ more < 256) (huncut : IsUncut more lo hi)
    (huncut' : IsUncut more lo' hi') :
    IsBefore (between lead more lo hi) (between lead more lo' hi') := by
  induction more generalizing lo hi lo' hi' with
  | zero =>
    rw [Nat.pow_zero, Nat.div_one] at hlead
    exact .head (byte_lt_byte (by omega) (by omega))
  | succ more ih =>
    obtain ⟨hblock, huncut⟩ := huncut
    obtain ⟨hblock', huncut'⟩ := huncut'
    rw [Nat.pow_succ', ← Nat.div_div_eq_div_mul] at hlead
    rw [between_succ, between_succ]
    by_cases hfront : hi / 64 < lo' / 64
    · exact (ih (Nat.div_le_div_right hle) hfront (Nat.div_le_div_right hle') hlead huncut
        huncut').append _ _
    · -- Both ranges lie in one block, so they agree on all bytes but the last.
      have hlo : lo' / 64 = lo / 64 := by omega
      have hhi : hi' / 64 = hi / 64 := by omega
      rw [hlo, hhi]
      exact (IsBefore.head (byte_lt_byte (by omega) (by omega))).append_left _

end ByteRange

/-! ## Cutting a range -/

namespace CharRange

open ByteRange (FitsAt IsBefore IsUncut)

variable {h : ByteArray} {pos lo hi a b : Nat}

theorem blockCut?_eq_none {size : Nat} (hcut : blockCut? lo hi size = none) :
    lo / size = hi / size ∨ lo % size = 0 ∧ hi % size = size - 1 := by
  unfold blockCut? at hcut
  split at hcut
  · next heq => exact Or.inl heq
  · split at hcut
    · cases hcut
    · split at hcut
      · cases hcut
      · next hlo hhi => exact Or.inr ⟨not_not.mp hlo, not_not.mp hhi⟩

theorem blockCut?_succ {size : Nat} (hsize : 0 < size) (hle : lo ≤ hi)
    (hcut : blockCut? lo hi size = some (a, b)) : b = a + 1 := by
  have hlt := (blockCut?_bounds hsize hle hcut).2.1
  unfold blockCut? at hcut
  split at hcut
  · cases hcut
  · split at hcut
    · cases hcut
      omega
    · split at hcut
      · cases hcut
        omega
      · cases hcut

/-- A cut leaves out nothing but the surrogates. -/
theorem cut?_succ (hle : lo ≤ hi) (hcut : cut? lo hi = some (a, b)) :
    a = 0xD7FF ∧ b = 0xE000 ∨ b = a + 1 ∧ (0xD7FF < lo ∨ hi < 0xE000) := by
  unfold cut? at hcut
  split at hcut
  · cases hcut
    exact Or.inl ⟨rfl, rfl⟩
  · next hnot =>
    refine Or.inr ⟨?_, by omega⟩
    split at hcut
    · cases hcut
      rfl
    · split at hcut
      · cases hcut
      · obtain ⟨size, hmem, hblock⟩ := List.exists_of_findSome?_eq_some hcut
        refine blockCut?_succ ?_ hle hblock
        simp only [blockSizes, List.mem_cons, List.not_mem_nil, or_false] at hmem
        omega

/-- Both parts of a range that is cut begin and end with a character. -/
theorem cut?_isValidChar (hle : lo ≤ hi) (hlo : lo.isValidChar) (hhi : hi.isValidChar)
    (hcut : cut? lo hi = some (a, b)) : a.isValidChar ∧ b.isValidChar := by
  have hbounds := cut?_bounds hle hcut
  have hsucc := cut?_succ hle hcut
  unfold Nat.isValidChar at hlo hhi ⊢
  omega

theorem following_eq_of_cut?_eq_none (hle : lo ≤ hi) (hcut : cut? lo hi = none) :
    Utf8.following lo = Utf8.following hi := by
  unfold cut? at hcut
  split at hcut
  · cases hcut
  · split at hcut
    · cases hcut
    · next hlimits =>
      simp only [lengthLimits, List.find?_eq_none, List.forall_mem_cons, Bool.and_eq_true,
        decide_eq_true_eq] at hlimits
      unfold Utf8.following
      split_ifs <;> omega

theorem isUncut_of_cut?_eq_none (hle : lo ≤ hi) (hcut : cut? lo hi = none) :
    IsUncut (Utf8.following hi) lo hi := by
  unfold cut? at hcut
  split at hcut
  · cases hcut
  · split at hcut
    · cases hcut
    · split at hcut
      · next hascii => simp only [Utf8.following, if_pos hascii, IsUncut]
      · simp only [blockSizes, List.findSome?_eq_none_iff, List.forall_mem_cons] at hcut
        have hone := blockCut?_eq_none hcut.1
        have htwo := blockCut?_eq_none hcut.2.1
        have hthree := blockCut?_eq_none hcut.2.2.1
        unfold Utf8.following
        split
        · trivial
        · split
          · exact ⟨hone, trivial⟩
          · split
            · exact ⟨hone, by omega, trivial⟩
            · exact ⟨hone, by omega, by omega, trivial⟩

/-- A range without a cut lies on one side of the surrogates. -/
theorem side_of_cut?_eq_none (hcut : cut? lo hi = none) : 0xD7FF < lo ∨ hi < 0xE000 := by
  unfold cut? at hcut
  split at hcut
  · cases hcut
  · omega

theorem leadOf_following_lt (hhi : hi.isValidChar) :
    Utf8.leadOf (Utf8.following hi) + hi / 64 ^ Utf8.following hi < 256 := by
  unfold Nat.isValidChar at hhi
  unfold Utf8.following
  split
  · simp only [Utf8.leadOf, Nat.pow_zero]
    omega
  · split
    · simp only [Utf8.leadOf, Nat.pow_one]
      omega
    · split
      · simp only [Utf8.leadOf, Nat.reducePow]
        omega
      · simp only [Utf8.leadOf, Nat.reducePow]
        omega

theorem sequence_eq_between (hle : lo ≤ hi) (hlo : lo.isValidChar) (hhi : hi.isValidChar)
    (hcut : cut? lo hi = none) :
    sequence lo hi =
      ByteRange.between (Utf8.leadOf (Utf8.following hi)) (Utf8.following hi) lo hi := by
  rw [sequence, Utf8.encode_eq_bytesOf, Utf8.encode_eq_bytesOf, CharSet.toNat_ofNat hlo,
    CharSet.toNat_ofNat hhi, following_eq_of_cut?_eq_none hle hcut, ByteRange.between]

theorem following_mono (hle : lo ≤ hi) : Utf8.following lo ≤ Utf8.following hi := by
  unfold Utf8.following
  split_ifs <;> omega

/-- The first byte tells how many follow. -/
theorem leadOf_lt_leadOf (hlt : Utf8.following a < Utf8.following b) :
    Utf8.leadOf (Utf8.following a) + a / 64 ^ Utf8.following a <
      Utf8.leadOf (Utf8.following b) + b / 64 ^ Utf8.following b := by
  unfold Utf8.following at hlt ⊢
  split_ifs at hlt ⊢ <;> simp only [Utf8.leadOf, Nat.reducePow] <;> omega

/-- A range without a cut is one sequence. -/
theorem fitsAt_sequence (hle : lo ≤ hi) (hlo : lo.isValidChar) (hhi : hi.isValidChar)
    (hcut : cut? lo hi = none) (n : Nat) :
    FitsAt h pos (sequence lo hi) ∧ (sequence lo hi).length = n ↔
      ∃ c : Char, (lo ≤ c.toNat ∧ c.toNat ≤ hi) ∧
        bytesAt h pos (Utf8.encode c) ∧ (Utf8.encode c).length = n := by
  have hfollowing : ∀ code, lo ≤ code → code ≤ hi → Utf8.following code = Utf8.following hi := by
    intro code hlocode hcodehi
    have := following_mono hlocode
    rw [following_eq_of_cut?_eq_none hle hcut] at this
    exact Nat.le_antisymm (following_mono hcodehi) this
  rw [sequence_eq_between hle hlo hhi hcut, ByteRange.length_between,
    ByteRange.fitsAt_between hle (leadOf_following_lt hhi) (isUncut_of_cut?_eq_none hle hcut)]
  constructor
  · rintro ⟨⟨code, hcode, hbytes⟩, hn⟩
    have hvalid : code.isValidChar := by
      have hside := side_of_cut?_eq_none hcut
      unfold Nat.isValidChar at hlo hhi ⊢
      omega
    refine ⟨Char.ofNat code, ?_⟩
    rw [Utf8.encode_eq_bytesOf, CharSet.toNat_ofNat hvalid, hfollowing code hcode.1 hcode.2,
      Utf8.length_bytesOf]
    exact ⟨hcode, hbytes, hn⟩
  · rintro ⟨c, hcode, hbytes⟩
    rw [Utf8.encode_eq_bytesOf, hfollowing c.toNat hcode.1 hcode.2, Utf8.length_bytesOf] at hbytes
    exact ⟨⟨c.toNat, hcode, hbytes.1⟩, hbytes.2⟩

theorem isBefore_sequence {lo' hi' : Nat} (hle : lo ≤ hi) (hlt : hi < lo') (hle' : lo' ≤ hi')
    (hlo : lo.isValidChar) (hhi : hi.isValidChar) (hlo' : lo'.isValidChar)
    (hhi' : hi'.isValidChar) (hcut : cut? lo hi = none) (hcut' : cut? lo' hi' = none) :
    IsBefore (sequence lo hi) (sequence lo' hi') := by
  have hmono : Utf8.following hi ≤ Utf8.following hi' := following_mono (by omega)
  rw [sequence_eq_between hle hlo hhi hcut, sequence_eq_between hle' hlo' hhi' hcut']
  rcases Nat.eq_or_lt_of_le hmono with heq | hlonger
  · rw [heq]
    exact ByteRange.isBefore_between hle hlt hle' (leadOf_following_lt hhi')
      (heq ▸ isUncut_of_cut?_eq_none hle hcut) (isUncut_of_cut?_eq_none hle' hcut')
  · have hfollowing := following_eq_of_cut?_eq_none hle' hcut'
    obtain ⟨rs, hrs⟩ := ByteRange.exists_between_eq_cons
      (Utf8.leadOf (Utf8.following hi)) (Utf8.following hi) lo hi
    obtain ⟨ss, hss⟩ := ByteRange.exists_between_eq_cons
      (Utf8.leadOf (Utf8.following hi')) (Utf8.following hi') lo' hi'
    have hlead := leadOf_following_lt hlo'
    rw [hfollowing] at hlead
    rw [hrs, hss]
    refine .head (ByteRange.byte_lt_byte ?_ hlead)
    rw [← hfollowing] at hlonger ⊢
    exact leadOf_lt_leadOf hlonger

/-- The sequences of a range are those of the codes between two cuts. -/
theorem mem_sequencesBetween {hle : lo ≤ hi} (hlo : lo.isValidChar) (hhi : hi.isValidChar)
    {rs : List ByteRange} (hrs : rs ∈ sequencesBetween lo hi hle) :
    ∃ a b, (lo ≤ a ∧ a ≤ b ∧ b ≤ hi) ∧ a.isValidChar ∧ b.isValidChar ∧ cut? a b = none ∧
      rs = sequence a b := by
  fun_induction sequencesBetween lo hi hle with
  | case1 lo hi hle hcut =>
    exact ⟨lo, hi, ⟨Nat.le_refl _, hle, Nat.le_refl _⟩, hlo, hhi, hcut, List.mem_singleton.mp hrs⟩
  | case2 lo hi hle a b hcut ihl ihr =>
    have hbounds := cut?_bounds hle hcut
    obtain ⟨ha, hb⟩ := cut?_isValidChar hle hlo hhi hcut
    rcases List.mem_append.mp hrs with hrs | hrs
    · obtain ⟨a', b', hle', hrest⟩ := ihl hlo ha hrs
      exact ⟨a', b', by omega, hrest⟩
    · obtain ⟨a', b', hle', hrest⟩ := ihr hb hhi hrs
      exact ⟨a', b', by omega, hrest⟩

theorem isBefore_of_mem_sequencesBetween {lo' hi' : Nat} {hle : lo ≤ hi} {hle' : lo' ≤ hi'}
    (hlt : hi < lo') (hlo : lo.isValidChar) (hhi : hi.isValidChar) (hlo' : lo'.isValidChar)
    (hhi' : hi'.isValidChar) {rs ss : List ByteRange} (hrs : rs ∈ sequencesBetween lo hi hle)
    (hss : ss ∈ sequencesBetween lo' hi' hle') : IsBefore rs ss := by
  obtain ⟨a, b, hab, ha, hb, hcut, rfl⟩ := mem_sequencesBetween hlo hhi hrs
  obtain ⟨a', b', hab', ha', hb', hcut', rfl⟩ := mem_sequencesBetween hlo' hhi' hss
  exact isBefore_sequence hab.2.1 (by omega) hab'.2.1 ha hb ha' hb' hcut hcut'

theorem pairwise_sequencesBetween {hle : lo ≤ hi} (hlo : lo.isValidChar) (hhi : hi.isValidChar) :
    (sequencesBetween lo hi hle).Pairwise IsBefore := by
  fun_induction sequencesBetween lo hi hle with
  | case1 lo hi hle hcut => exact List.pairwise_singleton IsBefore _
  | case2 lo hi hle a b hcut ihl ihr =>
    obtain ⟨ha, hb⟩ := cut?_isValidChar hle hlo hhi hcut
    refine List.pairwise_append.mpr ⟨ihl hlo ha, ihr hb hhi, fun rs hrs ss hss => ?_⟩
    exact isBefore_of_mem_sequencesBetween (cut?_bounds hle hcut).2.1 hlo ha hb hhi hrs hss

theorem fitsAt_sequencesBetween {hle : lo ≤ hi} (hlo : lo.isValidChar) (hhi : hi.isValidChar)
    (n : Nat) :
    (∃ rs ∈ sequencesBetween lo hi hle, FitsAt h pos rs ∧ rs.length = n) ↔
      ∃ c : Char, (lo ≤ c.toNat ∧ c.toNat ≤ hi) ∧
        bytesAt h pos (Utf8.encode c) ∧ (Utf8.encode c).length = n := by
  fun_induction sequencesBetween lo hi hle with
  | case1 lo hi hle hcut =>
    simp only [List.mem_singleton, exists_eq_left]
    exact fitsAt_sequence hle hlo hhi hcut n
  | case2 lo hi hle a b hcut ihl ihr =>
    have hbounds := cut?_bounds hle hcut
    have hsucc := cut?_succ hle hcut
    obtain ⟨ha, hb⟩ := cut?_isValidChar hle hlo hhi hcut
    simp only [List.mem_append, or_and_right]
    rw [exists_or, ihl hlo ha, ihr hb hhi, ← exists_or]
    refine exists_congr fun c => ?_
    rw [← or_and_right]
    refine and_congr_left fun _ => ?_
    have hc := CharSet.isValidChar_toNat c
    unfold Nat.isValidChar at hc
    omega

end CharRange

namespace CharSet

open ByteRange (FitsAt IsBefore)

/-- The sequences of a set stand just where its characters do. -/
theorem fitsAt_sequences (s : CharSet) (h : ByteArray) (pos n : Nat) :
    (∃ rs ∈ s.sequences, FitsAt h pos rs ∧ rs.length = n) ↔
      ∃ c, s.contains c ∧ bytesAt h pos (Utf8.encode c) ∧ (Utf8.encode c).length = n := by
  have hrange : ∀ r : CharRange, (∃ rs ∈ r.sequences, FitsAt h pos rs ∧ rs.length = n) ↔
      ∃ c, r.contains c ∧ bytesAt h pos (Utf8.encode c) ∧ (Utf8.encode c).length = n := by
    intro r
    simp only [CharRange.contains_iff]
    exact CharRange.fitsAt_sequencesBetween (isValidChar_toNat _) (isValidChar_toNat _) n
  simp only [contains_iff, sequences, List.mem_flatMap]
  constructor
  · rintro ⟨rs, ⟨r, hr, hrs⟩, hfits⟩
    obtain ⟨c, hc, hbytes⟩ := (hrange r).mp ⟨rs, hrs, hfits⟩
    exact ⟨c, ⟨r, hr, hc⟩, hbytes⟩
  · rintro ⟨c, ⟨r, hr, hc⟩, hbytes⟩
    obtain ⟨rs, hrs, hfits⟩ := (hrange r).mpr ⟨c, hc, hbytes⟩
    exact ⟨rs, ⟨r, hr, hrs⟩, hfits⟩

/-- The sequences of a set ascend if its ranges do. -/
theorem pairwise_isBefore_sequences {s : CharSet} (hs : s.IsAscending) :
    s.sequences.Pairwise IsBefore := by
  refine List.pairwise_flatMap.mpr ⟨fun r _ => ?_, hs.imp fun hrs ss hss ts hts => ?_⟩
  · exact CharRange.pairwise_sequencesBetween (isValidChar_toNat _) (isValidChar_toNat _)
  · exact CharRange.isBefore_of_mem_sequencesBetween hrs (isValidChar_toNat _)
      (isValidChar_toNat _) (isValidChar_toNat _) (isValidChar_toNat _) hss hts

theorem exists_eq_between_of_mem_sequences {s : CharSet} {rs : List ByteRange}
    (hrs : rs ∈ s.sequences) :
    ∃ lead more lo hi, lo ≤ hi ∧ lead + hi / 64 ^ more < 256 ∧ ByteRange.IsUncut more lo hi ∧
      rs = ByteRange.between lead more lo hi := by
  obtain ⟨r, -, hrs⟩ := List.mem_flatMap.mp hrs
  obtain ⟨a, b, hab, ha, hb, hcut, rfl⟩ :=
    CharRange.mem_sequencesBetween (isValidChar_toNat _) (isValidChar_toNat _) hrs
  exact ⟨_, _, a, b, hab.2.1, CharRange.leadOf_following_lt hb,
    CharRange.isUncut_of_cut?_eq_none hab.2.1 hcut,
    CharRange.sequence_eq_between hab.2.1 ha hb hcut⟩

theorem ne_nil_of_mem_sequences {s : CharSet} {rs : List ByteRange} (hrs : rs ∈ s.sequences) :
    rs ≠ [] := by
  obtain ⟨lead, more, lo, hi, -, -, -, rfl⟩ := exists_eq_between_of_mem_sequences hrs
  rw [← List.length_pos_iff_ne_nil, ByteRange.length_between]
  exact Nat.succ_pos more

/-- No range of a sequence is empty. -/
theorem lo_le_hi_of_mem_sequences {s : CharSet} {rs : List ByteRange} (hrs : rs ∈ s.sequences) :
    ∀ r ∈ rs, r.lo ≤ r.hi := by
  obtain ⟨lead, more, lo, hi, hle, hlead, huncut, rfl⟩ := exists_eq_between_of_mem_sequences hrs
  exact fun r hr => ByteRange.lo_le_hi_of_mem_between hle hlead huncut hr

end CharSet
end LinearRegex
