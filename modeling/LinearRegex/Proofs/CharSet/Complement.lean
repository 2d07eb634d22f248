import LinearRegex.Proofs.CharSet.Order

/-!
# What a complement holds

The complement of a set holds the other characters, with one exception (`contains_complement`).  It
concerns the two neighbours of the surrogates.  Where one range of the set ends with the first of
them and another begins with the second, no character is between the two ranges, but what is given
for their gap holds both.
-/

namespace LinearRegex

/-- The range holds the characters on both sides of the surrogates. -/
def CharRange.SpansSurrogates (r : CharRange) : Prop :=
  r.contains '\ud7ff' ∧ r.contains '\ue000'

/-- The characters on both sides of the surrogates are in the ranges, but not in one of them. -/
def MeetAtSurrogates (rs : List CharRange) : Prop :=
  (∃ r ∈ rs, r.contains '\ud7ff') ∧ (∃ r ∈ rs, r.contains '\ue000') ∧
    ¬∃ r ∈ rs, r.SpansSurrogates

/-- One of the two characters on either side of the surrogates. -/
def BordersSurrogates (c : Char) : Prop :=
  c = '\ud7ff' ∨ c = '\ue000'

theorem bordersSurrogates_iff {c : Char} :
    BordersSurrogates c ↔ c.toNat = 0xd7ff ∨ c.toNat = 0xe000 := by
  rw [BordersSurrogates, ← Char.toNat_inj, ← Char.toNat_inj]
  rfl

namespace CharRange

variable {r s : CharRange}

theorem contains_before_surrogates :
    r.contains '\ud7ff' ↔ r.lo.toNat ≤ 0xd7ff ∧ 0xd7ff ≤ r.hi.toNat :=
  contains_iff

theorem contains_after_surrogates :
    r.contains '\ue000' ↔ r.lo.toNat ≤ 0xe000 ∧ 0xe000 ≤ r.hi.toNat :=
  contains_iff

theorem spansSurrogates_iff : r.SpansSurrogates ↔ r.lo.toNat ≤ 0xd7ff ∧ 0xe000 ≤ r.hi.toNat := by
  rw [SpansSurrogates, contains_before_surrogates, contains_after_surrogates]
  omega

/-- Ranges that touch do not touch across the surrogates. -/
theorem spansSurrogates_hull (h : r.touches s) :
    (r.hull s).SpansSurrogates ↔ r.SpansSurrogates ∨ s.SpansSurrogates := by
  have hr := CharSet.isValidChar_toNat r.lo
  have hs := CharSet.isValidChar_toNat s.lo
  have hr' := CharSet.isValidChar_toNat r.hi
  have hs' := CharSet.isValidChar_toNat s.hi
  unfold Nat.isValidChar at hr hs hr' hs'
  rw [touches_iff] at h
  rw [spansSurrogates_iff, spansSurrogates_iff, spansSurrogates_iff, toNat_lo_hull, toNat_hi_hull]
  omega

end CharRange

namespace CharSet

open CharRange (IsBelow IsApart)

variable {c : Char} {r s : CharRange} {rest rs : List CharRange}

theorem meetAtSurrogates_ofRanges (rs : List CharRange) :
    MeetAtSurrogates (ofRanges rs).ranges ↔ MeetAtSurrogates rs := by
  unfold MeetAtSurrogates
  rw [exists_mem_ofRanges CharRange.contains_hull, exists_mem_ofRanges CharRange.contains_hull,
    exists_mem_ofRanges CharRange.spansSurrogates_hull]

/-- Ranges that meet at the surrogates are neighbours. -/
theorem meetAtSurrogates_cons_cons (h : (r :: s :: rest).Pairwise IsApart) :
    MeetAtSurrogates (r :: s :: rest) ↔
      (r.hi.toNat = 0xd7ff ∧ s.lo.toNat = 0xe000) ∨ MeetAtSurrogates (s :: rest) := by
  obtain ⟨hr, hs⟩ := List.pairwise_cons.mp h
  have hrest := (List.pairwise_cons.mp hs).1
  have hvalid := isValidChar_toNat r.hi
  have hvalid' := isValidChar_toNat s.lo
  have hvalid'' := isValidChar_toNat s.hi
  have hle := r.toNat_lo_le
  have hle' := s.toNat_lo_le
  unfold Nat.isValidChar at hvalid hvalid' hvalid''
  unfold IsApart at hr hrest
  have hrs := hr s List.mem_cons_self
  constructor
  · rintro ⟨⟨a, ha, hbefore⟩, ⟨b, hb, hafter⟩, hspan⟩
    have hspan' : ¬∃ t ∈ s :: rest, t.SpansSurrogates :=
      fun ⟨t, ht, hspans⟩ => hspan ⟨t, List.mem_cons_of_mem r ht, hspans⟩
    have hbefore' := CharRange.contains_before_surrogates.mp hbefore
    have hafter' := CharRange.contains_after_surrogates.mp hafter
    rcases List.mem_cons.mp ha with rfl | ha'
    · -- the first range holds the one character, so it ends there
      have hnot : ¬a.SpansSurrogates := fun hspans => hspan ⟨a, List.mem_cons_self, hspans⟩
      rw [CharRange.spansSurrogates_iff] at hnot
      rcases List.mem_cons.mp hb with rfl | hb
      · omega
      · rcases List.mem_cons.mp hb with rfl | hb
        · left
          omega
        · have := hrest b hb
          omega
    · rcases List.mem_cons.mp hb with rfl | hb
      · have := hr a ha'
        omega
      · exact .inr ⟨⟨a, ha', hbefore⟩, ⟨b, hb, hafter⟩, hspan'⟩
  · rintro (⟨hhi, hlo⟩ | ⟨⟨a, ha, hbefore⟩, ⟨b, hb, hafter⟩, hspan⟩)
    · refine ⟨⟨r, List.mem_cons_self, ?_⟩,
        ⟨s, List.mem_cons_of_mem r List.mem_cons_self, ?_⟩, ?_⟩
      · rw [CharRange.contains_before_surrogates]
        omega
      · rw [CharRange.contains_after_surrogates]
        omega
      · rintro ⟨t, ht, hspans⟩
        rw [CharRange.spansSurrogates_iff] at hspans
        rcases List.mem_cons.mp ht with rfl | ht
        · omega
        · rcases List.mem_cons.mp ht with rfl | ht
          · omega
          · have := hrest t ht
            omega
    · refine ⟨⟨a, List.mem_cons_of_mem r ha, hbefore⟩, ⟨b, List.mem_cons_of_mem r hb, hafter⟩, ?_⟩
      rintro ⟨t, ht, hspans⟩
      rcases List.mem_cons.mp ht with rfl | ht
      · have := hr a ha
        rw [CharRange.contains_before_surrogates] at hbefore
        rw [CharRange.spansSurrogates_iff] at hspans
        omega
      · exact hspan ⟨t, ht, hspans⟩

theorem not_meetAtSurrogates_singleton (r : CharRange) : ¬MeetAtSurrogates [r] := by
  rintro ⟨⟨a, ha, hbefore⟩, ⟨b, hb, hafter⟩, hspan⟩
  obtain rfl := List.mem_singleton.mp ha
  obtain rfl := List.mem_singleton.mp hb
  exact hspan ⟨b, List.mem_singleton_self b, hbefore, hafter⟩

/-- What is given for the gap between two ranges holds the characters between them.  Ranges that
meet at the surrogates have none between them, and it holds the two where they meet. -/
theorem contains_gap (h : IsApart r s) :
    (CharRange.between (after r.hi) (before s.lo)).contains c ↔
      (r.hi.toNat < c.toNat ∧ c.toNat < s.lo.toNat) ∨
      (r.hi.toNat = 0xd7ff ∧ s.lo.toNat = 0xe000) ∧ BordersSurrogates c := by
  have hr := isValidChar_toNat r.hi
  have hs := isValidChar_toNat s.lo
  have hc := isValidChar_toNat c
  unfold IsApart at h
  unfold Nat.isValidChar at hr hs hc
  have hlast : r.hi < lastChar := by
    rw [CharRange.char_lt_iff, toNat_lastChar]
    omega
  have hfirst : '\x00' < s.lo := by
    rw [CharRange.char_lt_iff]
    exact Nat.lt_of_le_of_lt (Nat.zero_le _) h
  rw [CharRange.contains_iff, toNat_lo_between, toNat_hi_between, toNat_after hlast,
    toNat_before hfirst, bordersSurrogates_iff]
  split <;> split <;> omega

theorem exists_mem_leading (rest : List CharRange) :
    (∃ g ∈ leading (r :: rest), g.contains c) ↔ c.toNat < r.lo.toNat := by
  have hc := isValidChar_toNat c
  unfold Nat.isValidChar at hc
  rw [leading, List.head?_cons]
  by_cases hpos : '\x00' < r.lo
  · have hzero : ('\x00' : Char).toNat = 0 := rfl
    simp only [if_pos hpos, List.mem_singleton, exists_eq_left]
    rw [CharRange.contains_iff, toNat_lo_between, toNat_hi_between, toNat_before hpos, hzero]
    rw [CharRange.char_lt_iff, hzero] at hpos
    split <;> omega
  · have hzero : r.lo.toNat ≤ 0 := Nat.le_of_not_lt hpos
    simp only [if_neg hpos, List.not_mem_nil, false_and, exists_false, false_iff]
    omega

theorem exists_mem_trailing_singleton :
    (∃ g ∈ trailing [r], g.contains c) ↔ r.hi.toNat < c.toNat := by
  have hc := isValidChar_toNat c
  have hr := isValidChar_toNat r.hi
  unfold Nat.isValidChar at hc hr
  rw [trailing, List.getLast?_singleton]
  by_cases hlast : r.hi < lastChar
  · simp only [if_pos hlast, List.mem_singleton, exists_eq_left]
    rw [CharRange.contains_iff, toNat_lo_between, toNat_hi_between, toNat_after hlast,
      toNat_lastChar]
    rw [CharRange.char_lt_iff, toNat_lastChar] at hlast
    split <;> omega
  · have hle : lastChar.toNat ≤ r.hi.toNat := Nat.le_of_not_lt hlast
    rw [toNat_lastChar] at hle
    simp only [if_neg hlast, List.not_mem_nil, false_and, exists_false, false_iff]
    omega

/-- A character in none of the ranges is before the first of them, or else behind it. -/
theorem forall_not_contains_cons_iff (h : (r :: rest).Pairwise IsApart) :
    (∀ s ∈ r :: rest, ¬s.contains c) ↔
      c.toNat < r.lo.toNat ∨ (r.hi.toNat < c.toNat ∧ ∀ s ∈ rest, ¬s.contains c) := by
  have hle := r.toNat_lo_le
  rw [List.forall_mem_cons, CharRange.contains_iff]
  constructor
  · rintro ⟨hnot, hrest⟩
    by_cases hlo : c.toNat < r.lo.toNat
    · exact .inl hlo
    · exact .inr ⟨by omega, hrest⟩
  · rintro (hlo | ⟨hlt, hrest⟩)
    · refine ⟨by omega, fun s hs hcontains => ?_⟩
      have hrs := (List.pairwise_cons.mp h).1 s hs
      rw [CharRange.contains_iff] at hcontains
      unfold IsApart at hrs
      omega
    · exact ⟨by omega, hrest⟩

/-- The gaps of a set and what is after its last range hold the characters behind its first range
that are in none of the others. -/
theorem exists_mem_gaps_append_trailing (h : (r :: rs).Pairwise IsApart) :
    (∃ g ∈ gaps (r :: rs) ++ trailing (r :: rs), g.contains c) ↔
      (r.hi.toNat < c.toNat ∧ ∀ s ∈ rs, ¬s.contains c) ∨
      MeetAtSurrogates (r :: rs) ∧ BordersSurrogates c := by
  induction rs generalizing r with
  | nil =>
    rw [gaps, List.nil_append, exists_mem_trailing_singleton]
    · simp [not_meetAtSurrogates_singleton]
    · intro _ _ _ heq
      cases heq
  | cons s rest ih =>
    obtain ⟨hr, hs⟩ := List.pairwise_cons.mp h
    have hrs := hr s List.mem_cons_self
    have htrailing : trailing (r :: s :: rest) = trailing (s :: rest) := by
      rw [trailing, trailing, List.getLast?_cons_cons]
    have hbehind : s.hi.toNat < c.toNat → r.hi.toNat < c.toNat := by
      have hle := s.toNat_lo_le
      unfold IsApart at hrs
      omega
    have hsplit : (r.hi.toNat < c.toNat ∧ ∀ t ∈ s :: rest, ¬t.contains c) ↔
        (r.hi.toNat < c.toNat ∧ c.toNat < s.lo.toNat) ∨
        (s.hi.toNat < c.toNat ∧ ∀ t ∈ rest, ¬t.contains c) := by
      rw [forall_not_contains_cons_iff hs, and_or_left, ← and_assoc,
        and_iff_right_of_imp hbehind]
    rw [gaps, List.cons_append, List.exists_mem_cons_iff, htrailing, ih hs, contains_gap hrs,
      hsplit, meetAtSurrogates_cons_cons h, or_and_right, or_or_or_comm]

theorem contains_full (c : Char) : full.contains c := by
  have hc := isValidChar_toNat c
  have hzero : '\x00'.toNat = 0 := rfl
  unfold Nat.isValidChar at hc
  rw [contains_iff]
  refine ⟨CharRange.full, List.mem_singleton_self _, ?_⟩
  rw [CharRange.contains_iff, CharRange.full, toNat_lo_between, toNat_hi_between, toNat_lastChar,
    hzero]
  omega

/-- The complement of a set holds the characters that are not in the set.  If ranges of the set meet
at the surrogates, it also holds the two characters where they meet. -/
theorem contains_complement {s : CharSet} (h : s.ranges.Pairwise IsApart) :
    s.complement.contains c ↔
      ¬s.contains c ∨ MeetAtSurrogates s.ranges ∧ BordersSurrogates c := by
  obtain ⟨rs⟩ := s
  cases rs with
  | nil =>
    have hempty : ¬contains ⟨[]⟩ c := Bool.false_ne_true
    exact iff_of_true (contains_full c) (.inl hempty)
  | cons r rest =>
    have hranges : (complement ⟨r :: rest⟩).ranges =
        leading (r :: rest) ++ (gaps (r :: rest) ++ trailing (r :: rest)) := by
      rw [← List.append_assoc]
      rfl
    rw [contains_iff, hranges, contains_iff]
    simp only [not_exists, not_and]
    rw [forall_not_contains_cons_iff h, or_assoc, ← exists_mem_gaps_append_trailing h,
      ← exists_mem_leading rest]
    simp only [List.mem_append, or_and_right, exists_or]

end CharSet
end LinearRegex
