import LinearRegex.Proofs.Expr.Cursor
import Mathlib.Data.List.Induction
import Mathlib.Data.Nat.Digits.Defs

/-!
# Counts

A count is written `{d}`, `{d,}` or `{d,e}`, where `d` and `e` are rows of digits of any length
(`CountText`).  The texts of counts, and no others, are found at the front of what is left to read,
and their numbers have the values that they have as decimals (`scanCount?_eq_some_iff`).
-/

namespace LinearRegex

/-! ## Rows of digits -/

/-- A row of digits, which may begin with zeros. -/
structure Numeral where
  digits : List Char
  ne_nil : digits ≠ []
  isDigit : ∀ c ∈ digits, c.isDigit

namespace Numeral

/-- The decimal number that the row stands for: its last digit counts once, and every other one ten
times as much as the one behind it. -/
def value (d : Numeral) : Nat :=
  Nat.ofDigits 10 (d.digits.reverse.map fun c => c.toNat - '0'.toNat)

/-- The digits at the front of a text, if there are any. -/
def front (cs : List Char) (h : cs.takeWhile Char.isDigit ≠ []) : Numeral where
  digits := cs.takeWhile Char.isDigit
  ne_nil := h
  isDigit := fun _ hc => List.all_eq_true.mp List.all_takeWhile _ hc

variable {c : Char}

theorem takeWhile_digits_append (d : Numeral) (hc : ¬ c.isDigit) (rest : List Char) :
    (d.digits ++ c :: rest).takeWhile Char.isDigit = d.digits := by
  rw [List.takeWhile_append_of_pos d.isDigit, List.takeWhile_cons_of_neg hc, List.append_nil]

theorem dropWhile_digits_append (d : Numeral) (hc : ¬ c.isDigit) (rest : List Char) :
    (d.digits ++ c :: rest).dropWhile Char.isDigit = c :: rest := by
  rw [List.dropWhile_append_of_pos d.isDigit, List.dropWhile_cons_of_neg hc]

/-- A decimal digit is worth as much as it stands behind `0`. -/
theorem digit?_of_isDigit (h : c.isDigit) : Text.digit? 10 c = some (c.toNat - '0'.toNat) := by
  have hlt : c.toNat - '0'.toNat < 10 := by
    simp only [Char.isDigit, Bool.and_eq_true, decide_eq_true_eq, UInt32.le_iff_toNat_le] at h
    have hle : c.toNat ≤ 57 := h.2
    have hzero : '0'.toNat = 48 := rfl
    omega
  simp only [Text.digit?, h, if_true, if_pos hlt]

theorem digitsValue_eq_ofDigits {cs : List Char} (h : ∀ c ∈ cs, c.isDigit) :
    Text.digitsValue 10 cs = Nat.ofDigits 10 (cs.reverse.map fun c => c.toNat - '0'.toNat) := by
  induction cs using List.reverseRecOn with
  | nil => rfl
  | append_singleton cs c ih =>
    obtain ⟨hcs, hc⟩ := List.forall_mem_append.mp h
    have hdigit := digit?_of_isDigit (hc c (List.mem_singleton_self c))
    have hfold : Text.digitsValue 10 (cs ++ [c]) =
        10 * Text.digitsValue 10 cs + (Text.digit? 10 c).getD 0 := by
      rw [Text.digitsValue, List.foldl_append]
      rfl
    rw [hfold, hdigit, ih hcs, List.reverse_append, List.reverse_singleton, List.singleton_append,
      List.map_cons, Nat.ofDigits_cons, Option.getD_some, Nat.add_comm]

theorem digitsValue_digits (d : Numeral) : Text.digitsValue 10 d.digits = d.value :=
  digitsValue_eq_ofDigits d.isDigit

end Numeral

/-! ## How counts are written -/

/-- A count as it is written: `{d}`, `{d,}` or `{d,e}`. -/
inductive CountText where
  | exactly (d : Numeral)
  | atLeast (d : Numeral)
  | between (d e : Numeral)

namespace CountText

/-- What stands between the braces. -/
def inside : CountText → List Char
  | exactly d => d.digits
  | atLeast d => d.digits ++ [',']
  | between d e => d.digits ++ ',' :: e.digits

def text (t : CountText) : List Char :=
  '{' :: (t.inside ++ ['}'])

def min : CountText → Nat
  | exactly d | atLeast d | between d _ => d.value

def max : CountText → Option Nat
  | exactly d => some d.value
  | atLeast _ => none
  | between _ e => some e.value

/-- The numbers are in order and none is larger than 1000. -/
def IsInBounds : CountText → Prop
  | exactly d | atLeast d => d.value ≤ 1000
  | between d e => d.value ≤ 1000 ∧ d.value ≤ e.value ∧ e.value ≤ 1000

instance : DecidablePred IsInBounds
  | exactly d | atLeast d => inferInstanceAs (Decidable (d.value ≤ 1000))
  | between d e =>
    inferInstanceAs (Decidable (d.value ≤ 1000 ∧ d.value ≤ e.value ∧ e.value ≤ 1000))

/-- What the reader makes of the text. -/
def count (t : CountText) : Count where
  min := t.min
  max := t.max
  length := t.text.length

theorem isValid_count_iff (t : CountText) : t.count.isValid ↔ t.IsInBounds := by
  have hvalid : t.count.isValid ↔ t.min ≤ 1000 ∧ ∀ m ∈ t.max, t.min ≤ m ∧ m ≤ 1000 := by
    simp only [Count.isValid, Bool.and_eq_true, decide_eq_true_eq, Option.all_eq_true]
    rfl
  rw [hvalid]
  cases t with
  | exactly d => simp [min, max, IsInBounds]
  | atLeast d => simp [min, max, IsInBounds]
  | between d e => simp [min, max, IsInBounds]

theorem text_append (t : CountText) (rest : List Char) :
    t.text ++ rest = '{' :: (t.inside ++ '}' :: rest) := by
  rw [text, List.cons_append, List.append_assoc, List.singleton_append]

theorem length_text (t : CountText) : t.text.length = t.inside.length + 2 := by
  rw [text, List.length_cons, List.length_append, List.length_singleton]

/-- Nothing inside the braces closes them. -/
theorem notMem_inside (t : CountText) : '}' ∉ t.inside := by
  have hdigits : ∀ d : Numeral, '}' ∉ d.digits :=
    fun d hmem => absurd (d.isDigit _ hmem) (by decide)
  cases t with
  | exactly d => exact hdigits d
  | atLeast d => simp [inside, hdigits d]
  | between d e => simp [inside, hdigits d, hdigits e]

theorem utf8Size_of_mem_text (t : CountText) : ∀ c ∈ t.text, c.utf8Size = 1 := by
  have hdigits : ∀ d : Numeral, ∀ c ∈ d.digits, c.utf8Size = 1 :=
    fun d c hc => utf8Size_of_isDigit (d.isDigit c hc)
  have hcomma : ','.utf8Size = 1 := rfl
  refine List.forall_mem_cons.mpr ⟨rfl, List.forall_mem_append.mpr
    ⟨?_, List.forall_mem_singleton.mpr rfl⟩⟩
  cases t with
  | exactly d => exact hdigits d
  | atLeast d =>
    exact List.forall_mem_append.mpr ⟨hdigits d, List.forall_mem_singleton.mpr hcomma⟩
  | between d e =>
    exact List.forall_mem_append.mpr ⟨hdigits d, List.forall_mem_cons.mpr ⟨hcomma, hdigits e⟩⟩

end CountText

/-! ## What is scanned -/

theorem scanCount?_digits_append (d : Numeral) {c : Char} (hc : ¬ c.isDigit) (rest : List Char) :
    scanCount? ('{' :: (d.digits ++ c :: rest)) = closeCount? d.digits (c :: rest) := by
  rw [scanCount?, d.takeWhile_digits_append hc, d.dropWhile_digits_append hc]
  split
  · next hnil => exact absurd hnil d.ne_nil
  · rfl

/-- A count is scanned with the values of its numbers. -/
theorem scanCount?_text_append (t : CountText) (rest : List Char) :
    scanCount? (t.text ++ rest) = some t.count := by
  have hbrace : ¬ '}'.isDigit := by decide
  have hcomma : ¬ ','.isDigit := by decide
  rw [t.text_append, CountText.count, t.length_text]
  cases t with
  | exactly d =>
    rw [CountText.inside, scanCount?_digits_append d hbrace, closeCount?, d.digitsValue_digits]
    rfl
  | atLeast d =>
    rw [CountText.inside, List.append_assoc, List.singleton_append,
      scanCount?_digits_append d hcomma, closeCount?, List.dropWhile_cons_of_neg hbrace,
      List.takeWhile_cons_of_neg hbrace, d.digitsValue_digits, List.length_append]
    rfl
  | between d e =>
    have hlength : (CountText.between d e).inside.length + 2 =
        d.digits.length + e.digits.length + 3 := by
      rw [CountText.inside, List.length_append, List.length_cons]
      omega
    have hvalue := e.digitsValue_digits
    rw [hlength, CountText.inside, List.append_assoc, List.cons_append,
      scanCount?_digits_append d hcomma, closeCount?, e.dropWhile_digits_append hbrace,
      e.takeWhile_digits_append hbrace, d.digitsValue_digits]
    -- There is an upper bound, since the second row of digits is not empty.
    cases hdigits : e.digits with
    | nil => exact absurd hdigits e.ne_nil
    | cons c cs =>
      rw [hdigits] at hvalue
      simp only [hvalue]
      rfl

/-- What closes a count stands behind its first number. -/
theorem exists_text_of_closeCount? (d : Numeral) {cs : List Char} {count : Count}
    (h : closeCount? d.digits cs = some count) :
    ∃ t : CountText, t.text <+: '{' :: (d.digits ++ cs) := by
  unfold closeCount? at h
  split at h
  · next rest => exact ⟨.exactly d, rest, CountText.text_append _ rest⟩
  · next rest =>
    split at h
    · next rest' hclose =>
      have hrest : rest.takeWhile Char.isDigit ++ rest.dropWhile Char.isDigit = rest :=
        List.takeWhile_append_dropWhile
      by_cases hnil : rest.takeWhile Char.isDigit = []
      · refine ⟨.atLeast d, rest', ?_⟩
        rw [hnil, hclose, List.nil_append] at hrest
        rw [CountText.text_append, CountText.inside, List.append_assoc, ← hrest]
        rfl
      · obtain ⟨e, he⟩ : ∃ e : Numeral, e.digits = rest.takeWhile Char.isDigit :=
          ⟨.front rest hnil, rfl⟩
        refine ⟨.between d e, rest', ?_⟩
        rw [← he, hclose] at hrest
        rw [CountText.text_append, CountText.inside, List.append_assoc, ← hrest]
        rfl
    · cases h
  · cases h

/-- Nothing else is scanned. -/
theorem exists_text_of_scanCount? {cs : List Char} {count : Count}
    (h : scanCount? cs = some count) : ∃ t : CountText, t.text <+: cs := by
  unfold scanCount? at h
  split at h
  · next rest =>
    split at h
    · cases h
    · next hne =>
      have hrest : (Numeral.front rest hne).digits ++ rest.dropWhile Char.isDigit = rest :=
        List.takeWhile_append_dropWhile
      have hclosed := exists_text_of_closeCount? (.front rest hne) h
      rwa [hrest] at hclosed
  · cases h

/-- What is scanned is a count in front, with the values of its numbers. -/
theorem scanCount?_eq_some_iff {cs : List Char} {count : Count} :
    scanCount? cs = some count ↔ ∃ t : CountText, t.text <+: cs ∧ t.count = count := by
  constructor
  · intro h
    obtain ⟨t, rest, rfl⟩ := exists_text_of_scanCount? h
    rw [scanCount?_text_append, Option.some.injEq] at h
    exact ⟨t, List.prefix_append _ _, h⟩
  · rintro ⟨t, ⟨rest, rfl⟩, rfl⟩
    exact scanCount?_text_append t rest

theorem isSome_scanCount?_iff {cs : List Char} :
    (scanCount? cs).isSome ↔ ∃ t : CountText, t.text <+: cs := by
  rw [Option.isSome_iff_exists]
  constructor
  · rintro ⟨count, h⟩
    exact exists_text_of_scanCount? h
  · rintro ⟨t, ht⟩
    exact ⟨t.count, scanCount?_eq_some_iff.mpr ⟨t, ht, rfl⟩⟩

end LinearRegex
