import LinearRegex.CharClass
import Mathlib.Data.List.Basic

/-!
# The order of the ranges of a set

The sets that patterns speak of are made from ranges in any order.  Sorting and joining the ranges
loses no character and adds none (`contains_ofRanges`), and leaves ranges that ascend and do not
meet; the ranges between them ascend as well.  So the ranges of every class ascend
(`isAscending_toSet`), which is what a trie of their encodings relies on.
-/

namespace LinearRegex

namespace CharRange

variable {r s : CharRange} {c d : Char}

theorem char_le_iff : c ≤ d ↔ c.toNat ≤ d.toNat :=
  Iff.rfl

theorem char_lt_iff : c < d ↔ c.toNat < d.toNat :=
  Iff.rfl

theorem toNat_lo_le (r : CharRange) : r.lo.toNat ≤ r.hi.toNat :=
  r.lo_le_hi

theorem contains_iff : r.contains c ↔ r.lo.toNat ≤ c.toNat ∧ c.toNat ≤ r.hi.toNat := by
  rw [contains, Bool.and_eq_true, decide_eq_true_eq, decide_eq_true_eq, char_le_iff, char_le_iff]

theorem contains_single : (single d).contains c ↔ c = d := by
  rw [contains_iff, ← Char.toNat_inj]
  exact ⟨fun h => Nat.le_antisymm h.2 h.1, fun h => ⟨Nat.le_of_eq h.symm, Nat.le_of_eq h⟩⟩

theorem touches_iff : r.touches s ↔
    r.lo.toNat ≤ s.hi.toNat + 1 ∧ s.lo.toNat ≤ r.hi.toNat + 1 := by
  have hr := r.toNat_lo_le
  have hs := s.toNat_lo_le
  rw [touches, decide_eq_true_eq]
  omega

theorem toNat_lo_hull : (r.hull s).lo.toNat = min r.lo.toNat s.lo.toNat := by
  simp only [hull, char_le_iff]
  split <;> omega

theorem toNat_hi_hull : (r.hull s).hi.toNat = max r.hi.toNat s.hi.toNat := by
  simp only [hull, char_le_iff]
  split <;> omega

/-- Ranges that touch leave no character out. -/
theorem contains_hull (h : r.touches s) :
    (r.hull s).contains c ↔ r.contains c ∨ s.contains c := by
  have hr := r.toNat_lo_le
  have hs := s.toNat_lo_le
  rw [touches_iff] at h
  rw [contains_iff, contains_iff, contains_iff, toNat_lo_hull, toNat_hi_hull]
  omega

theorem precedes_iff : r.precedes s ↔
    r.lo.toNat < s.lo.toNat ∨ r.lo.toNat = s.lo.toNat ∧ r.hi.toNat ≤ s.hi.toNat := by
  rw [precedes, Bool.or_eq_true, Bool.and_eq_true, decide_eq_true_eq, decide_eq_true_eq,
    beq_iff_eq, char_lt_iff, char_le_iff, Char.toNat_inj]

theorem precedes_trans (r s t : CharRange) (hrs : r.precedes s) (hst : s.precedes t) :
    r.precedes t := by
  rw [precedes_iff] at hrs hst ⊢
  omega

theorem precedes_total (r s : CharRange) : r.precedes s || s.precedes r := by
  rw [Bool.or_eq_true, precedes_iff, precedes_iff]
  omega

/-- All characters of one range come before those of the other. -/
def IsBelow (r s : CharRange) : Prop :=
  r.hi.toNat < s.lo.toNat

/-- One range is below the other, and the code point after it is not in the other. -/
def IsApart (r s : CharRange) : Prop :=
  r.hi.toNat + 1 < s.lo.toNat

end CharRange

namespace CharSet

open CharRange (IsBelow IsApart)

variable {c : Char}

/-- The ranges of a set ascend. -/
def IsAscending (s : CharSet) : Prop :=
  s.ranges.Pairwise IsBelow

theorem contains_iff {s : CharSet} : s.contains c ↔ ∃ r ∈ s.ranges, r.contains c := by
  rw [contains, List.any_eq_true]

/-! ## Sorting and joining -/

/-- Joined ranges begin no earlier than the first, and the code points between them are in none. -/
theorem pairwise_join {current : CharRange} {rs : List CharRange}
    (h : (current :: rs).Pairwise fun r s => r.lo.toNat ≤ s.lo.toNat) :
    (∀ r ∈ join current rs, current.lo.toNat ≤ r.lo.toNat) ∧
      (join current rs).Pairwise IsApart := by
  fun_induction join current rs with
  | case1 current => simp
  | case2 current r rest htouches ih =>
    rw [List.pairwise_cons, List.pairwise_cons] at h
    have hle := h.1 r List.mem_cons_self
    have hlo : (current.hull r).lo.toNat = current.lo.toNat := by
      rw [CharRange.toNat_lo_hull]
      omega
    have hhull : (current.hull r :: rest).Pairwise fun r s => r.lo.toNat ≤ s.lo.toNat := by
      refine List.pairwise_cons.mpr ⟨fun s hs => ?_, h.2.2⟩
      rw [hlo]
      exact h.1 s (List.mem_cons_of_mem r hs)
    rw [← hlo]
    exact ih hhull
  | case3 current r rest htouches ih =>
    obtain ⟨hcurrent, hrest⟩ := List.pairwise_cons.mp h
    obtain ⟨hle, hapart⟩ := ih hrest
    have hlo := hcurrent r List.mem_cons_self
    have hr := r.toNat_lo_le
    rw [CharRange.touches_iff] at htouches
    refine ⟨List.forall_mem_cons.mpr ⟨Nat.le_refl _, fun s hs => ?_⟩,
      List.pairwise_cons.mpr ⟨fun s hs => ?_, hapart⟩⟩
    · exact Nat.le_trans hlo (hle s hs)
    · have := hle s hs
      unfold IsApart
      omega

/-- Joining changes no answer to which ranges have a property, if a hull has it just when one of
its parts does. -/
theorem exists_mem_join {P : CharRange → Prop}
    (hP : ∀ {r s : CharRange}, r.touches s → (P (r.hull s) ↔ P r ∨ P s))
    {current : CharRange} {rs : List CharRange} :
    (∃ r ∈ join current rs, P r) ↔ P current ∨ ∃ r ∈ rs, P r := by
  fun_induction join current rs with
  | case1 current => simp
  | case2 current r rest htouches ih =>
    rw [ih, hP htouches, List.exists_mem_cons_iff, or_assoc]
  | case3 current r rest htouches ih =>
    rw [List.exists_mem_cons_iff, ih, List.exists_mem_cons_iff]

theorem pairwise_mergeSort_precedes (rs : List CharRange) :
    (rs.mergeSort CharRange.precedes).Pairwise fun r s => r.lo.toNat ≤ s.lo.toNat := by
  have hsorted : (rs.mergeSort CharRange.precedes).Pairwise fun r s => r.precedes s :=
    List.pairwise_mergeSort CharRange.precedes_trans CharRange.precedes_total rs
  refine hsorted.imp fun hrs => ?_
  rw [CharRange.precedes_iff] at hrs
  omega

theorem pairwise_ofRanges (rs : List CharRange) : (ofRanges rs).ranges.Pairwise IsApart := by
  have hsorted := pairwise_mergeSort_precedes rs
  unfold ofRanges
  split
  · exact List.Pairwise.nil
  · next heq =>
    rw [heq] at hsorted
    exact (pairwise_join hsorted).2

theorem exists_mem_ofRanges {P : CharRange → Prop}
    (hP : ∀ {r s : CharRange}, r.touches s → (P (r.hull s) ↔ P r ∨ P s)) (rs : List CharRange) :
    (∃ r ∈ (ofRanges rs).ranges, P r) ↔ ∃ r ∈ rs, P r := by
  have hmem : ∀ r, r ∈ rs.mergeSort CharRange.precedes ↔ r ∈ rs := fun r => List.mem_mergeSort
  simp only [← hmem]
  unfold ofRanges
  split
  · next heq => simp [heq, empty]
  · next heq => rw [exists_mem_join hP, heq, List.exists_mem_cons_iff]

/-- A set has the characters of the ranges that it is made of. -/
theorem contains_ofRanges (rs : List CharRange) :
    (ofRanges rs).contains c ↔ ∃ r ∈ rs, r.contains c :=
  contains_iff.trans (exists_mem_ofRanges CharRange.contains_hull rs)

theorem contains_ofChars (cs : List Char) : (ofChars cs).contains c ↔ c ∈ cs := by
  rw [ofChars, contains_ofRanges]
  simp [CharRange.contains_single]

/-! ## What is between the ranges -/

theorem isValidChar_toNat (c : Char) : c.toNat.isValidChar :=
  c.valid

theorem toNat_ofNat {n : Nat} (h : n.isValidChar) : (Char.ofNat n).toNat = n := by
  rw [Char.ofNat, dif_pos h]
  rfl

theorem toNat_lastChar : lastChar.toNat = 0x10ffff :=
  rfl

theorem toNat_after (h : c < lastChar) :
    (after c).toNat = if c.toNat = 0xd7ff then 0xe000 else c.toNat + 1 := by
  have hvalid := isValidChar_toNat c
  rw [CharRange.char_lt_iff, toNat_lastChar] at h
  by_cases hc : c = '\ud7ff'
  · subst hc
    rfl
  · have hne : c.toNat ≠ 0xd7ff := fun heq => hc (Char.toNat_inj.mp heq)
    rw [after, if_neg hc, if_neg hne, toNat_ofNat]
    unfold Nat.isValidChar at hvalid ⊢
    omega

theorem toNat_before (h : '\x00' < c) :
    (before c).toNat = if c.toNat = 0xe000 then 0xd7ff else c.toNat - 1 := by
  have hvalid := isValidChar_toNat c
  by_cases hc : c = '\ue000'
  · subst hc
    rfl
  · have hne : c.toNat ≠ 0xe000 := fun heq => hc (Char.toNat_inj.mp heq)
    rw [before, if_neg hc, if_neg hne, toNat_ofNat]
    unfold Nat.isValidChar at hvalid ⊢
    omega

theorem toNat_lo_between (a b : Char) :
    (CharRange.between a b).lo.toNat = min a.toNat b.toNat := by
  unfold CharRange.between
  split
  · next hle => exact (Nat.min_eq_left hle).symm
  · next hnot => exact (Nat.min_eq_right (Nat.le_of_not_le hnot)).symm

theorem toNat_hi_between (a b : Char) :
    (CharRange.between a b).hi.toNat = max a.toNat b.toNat := by
  unfold CharRange.between
  split
  · next hle => exact (Nat.max_eq_right hle).symm
  · next hnot => exact (Nat.max_eq_left (Nat.le_of_not_le hnot)).symm

/-- What is given for the gap between two ranges reaches into neither, unless the ranges meet at the
surrogates; then it reaches into both by a character. -/
theorem gap_bounds {r s : CharRange} (h : IsApart r s) :
    (r.hi.toNat ≤ (CharRange.between (after r.hi) (before s.lo)).lo.toNat ∧
      (r.hi.toNat = (CharRange.between (after r.hi) (before s.lo)).lo.toNat →
        r.hi.toNat = 0xd7ff)) ∧
    (CharRange.between (after r.hi) (before s.lo)).hi.toNat ≤ s.lo.toNat ∧
      ((CharRange.between (after r.hi) (before s.lo)).hi.toNat = s.lo.toNat →
        s.lo.toNat = 0xe000) := by
  have hr := isValidChar_toNat r.hi
  have hs := isValidChar_toNat s.lo
  unfold IsApart at h
  unfold Nat.isValidChar at hr hs
  have hlast : r.hi < lastChar := by
    rw [CharRange.char_lt_iff, toNat_lastChar]
    omega
  have hfirst : '\x00' < s.lo := by
    rw [CharRange.char_lt_iff]
    exact Nat.lt_of_le_of_lt (Nat.zero_le _) h
  rw [toNat_lo_between, toNat_hi_between, toNat_after hlast, toNat_before hfirst]
  split <;> split <;> omega

/-- The gaps lie behind the first range, and ascend. -/
theorem pairwise_gaps {r : CharRange} {rs : List CharRange}
    (h : (r :: rs).Pairwise IsApart) :
    (∀ g ∈ gaps (r :: rs),
      r.hi.toNat ≤ g.lo.toNat ∧ (r.hi.toNat = g.lo.toNat → r.hi.toNat = 0xd7ff)) ∧
      (gaps (r :: rs)).Pairwise IsBelow := by
  induction rs generalizing r with
  | nil => simp [gaps]
  | cons s rest ih =>
    obtain ⟨hr, hrest⟩ := List.pairwise_cons.mp h
    obtain ⟨hbehind, hascend⟩ := ih hrest
    have hapart := hr s List.mem_cons_self
    obtain ⟨hlo, hhi⟩ := gap_bounds hapart
    have hs := s.toNat_lo_le
    unfold IsApart at hapart
    rw [gaps]
    refine ⟨List.forall_mem_cons.mpr ⟨hlo, fun g hg => ?_⟩,
      List.pairwise_cons.mpr ⟨fun g hg => ?_, hascend⟩⟩
    · have := hbehind g hg
      omega
    · have := hbehind g hg
      unfold IsBelow
      omega

/-- The gaps lie before the last range. -/
theorem hi_le_of_mem_gaps {rs : List CharRange} (h : rs.Pairwise IsApart) {g l : CharRange}
    (hg : g ∈ gaps rs) (hl : rs.getLast? = some l) : g.hi.toNat ≤ l.lo.toNat := by
  fun_induction gaps rs with
  | case1 r s rest ih =>
    rw [List.getLast?_cons_cons] at hl
    obtain ⟨hr, hrest⟩ := List.pairwise_cons.mp h
    rcases List.mem_cons.mp hg with rfl | hg
    · have hgap := (gap_bounds (hr s List.mem_cons_self)).2
      have hs := s.toNat_lo_le
      rcases List.mem_cons.mp (List.mem_of_getLast? hl) with rfl | hmem
      · exact hgap.1
      · have := (List.pairwise_cons.mp hrest).1 l hmem
        unfold IsApart at this
        omega
    · exact ih hrest hg hl
  | case2 => cases hg

theorem hi_lt_of_mem_leading {r g : CharRange} {rest : List CharRange}
    (hg : g ∈ leading (r :: rest)) : g.hi.toNat < r.lo.toNat := by
  rw [leading, List.head?_cons] at hg
  split at hg
  · next heq =>
    cases heq
    split at hg
    · next hpos =>
      obtain rfl := List.mem_singleton.mp hg
      rw [CharRange.char_lt_iff] at hpos
      rw [toNat_hi_between, toNat_before hpos]
      split <;> omega
    · cases hg
  · cases hg

theorem lt_lo_of_mem_trailing {rs : List CharRange} {l g : CharRange} (hl : rs.getLast? = some l)
    (hg : g ∈ trailing rs) : l.hi.toNat < g.lo.toNat := by
  rw [trailing, hl] at hg
  split at hg
  · next heq =>
    cases heq
    split at hg
    · next hlast =>
      obtain rfl := List.mem_singleton.mp hg
      rw [CharRange.char_lt_iff] at hlast
      rw [toNat_lo_between, toNat_after hlast]
      split <;> omega
    · cases hg
  · cases hg

theorem pairwise_leading (rs : List CharRange) : (leading rs).Pairwise IsBelow := by
  unfold leading
  split <;> simp [apply_ite]

theorem pairwise_trailing (rs : List CharRange) : (trailing rs).Pairwise IsBelow := by
  unfold trailing
  split <;> simp [apply_ite]

/-- No range of a set ends behind the last one. -/
theorem hi_le_hi_getLast? {r l : CharRange} {rest : List CharRange}
    (h : (r :: rest).Pairwise IsApart) (hl : (r :: rest).getLast? = some l) :
    r.hi.toNat ≤ l.hi.toNat := by
  rcases List.mem_cons.mp (List.mem_of_getLast? hl) with rfl | hmem
  · exact Nat.le_refl _
  · have := (List.pairwise_cons.mp h).1 l hmem
    have := l.toNat_lo_le
    unfold IsApart at *
    omega

/-- The ranges between those of a set ascend. -/
theorem isAscending_complement {s : CharSet} (h : s.ranges.Pairwise IsApart) :
    s.complement.IsAscending := by
  obtain ⟨rs⟩ := s
  unfold IsAscending complement
  cases rs with
  | nil => exact List.pairwise_singleton IsBelow _
  | cons r rest =>
    obtain ⟨hbehind, hgaps⟩ := pairwise_gaps h
    obtain ⟨l, hl⟩ : ∃ l, (r :: rest).getLast? = some l :=
      ⟨_, List.getLast?_eq_some_getLast (List.cons_ne_nil r rest)⟩
    have hr := r.toNat_lo_le
    have hrl := hi_le_hi_getLast? h hl
    refine List.pairwise_append.mpr ⟨List.pairwise_append.mpr ⟨pairwise_leading _, hgaps, ?_⟩,
      pairwise_trailing _, ?_⟩
    · intro a ha b hb
      have := hi_lt_of_mem_leading ha
      have := (hbehind b hb).1
      unfold IsBelow
      omega
    · intro a ha b hb
      have := lt_lo_of_mem_trailing hl hb
      unfold IsBelow
      rcases List.mem_append.mp ha with ha | ha
      · have := hi_lt_of_mem_leading ha
        omega
      · have := hi_le_of_mem_gaps h ha hl
        have := l.toNat_lo_le
        omega

theorem isAscending_ofRanges (rs : List CharRange) : (ofRanges rs).IsAscending :=
  (pairwise_ofRanges rs).imp fun h => Nat.lt_of_succ_lt h

theorem isAscending_caseOrbit (c : Char) : (caseOrbit c).IsAscending :=
  isAscending_ofRanges _

/-- The ranges of every class ascend. -/
theorem isAscending_toSet (c : CharClass) : c.toSet.IsAscending := by
  unfold CharClass.toSet ofClass
  split
  · exact isAscending_complement (pairwise_ofRanges _)
  · exact isAscending_ofRanges _

end CharSet
end LinearRegex
