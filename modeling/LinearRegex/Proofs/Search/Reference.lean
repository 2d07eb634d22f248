import LinearRegex.Proofs.Program.Summary
import LinearRegex.Proofs.Search.Preference

/-!
# What a search ought to find

A match starts at the first position where one may start and from which some path leads to a match.
Of the matches from there, the one is kept that the preferred path leads to, or the first of those
that end last (`best?`).  Where the summaries of a program exclude a start, there is no match
(`matchesAt_eq_nil_of_candidate?`).
-/

namespace LinearRegex

namespace Haystack

theorem first?_eq_none {q : Nat → Bool} {pos stop : Nat} (h : first? q pos stop = none) :
    ∀ i, pos ≤ i → i < stop → q i = false := by
  fun_induction first? q pos stop with
  | case1 => cases h
  | case2 pos hlt hq ih =>
    intro i hi hstop
    rcases Nat.eq_or_lt_of_le hi with rfl | hi
    · exact Bool.eq_false_of_not_eq_true hq
    · exact ih h i hi hstop
  | case3 pos hge =>
    intro i hi hstop
    omega

end Haystack

/-- A match may start at `start`, as far as the input tells. -/
structure Input.Admits (input : Input) (start : Nat) : Prop where
  le : input.start ≤ start
  le_size : start ≤ input.haystack.size
  eq : input.anchoredStart → start = input.start
  isBoundary : Utf8.isBoundary input.haystack start

namespace Search

/-- A match of `p` may start at `pos`. -/
def admits (p : Program) (input : Input) (pos : Nat) : Bool :=
  (!input.anchoredFor p || pos == input.start) && Utf8.isBoundary input.haystack pos

/-- The positions from `pos` on at which a match may start. -/
def startsFrom (p : Program) (input : Input) (pos : Nat) : List Nat :=
  (List.range' pos (input.haystack.size + 1 - pos)).filter (admits p input)

/-- The matches that start at `start`, the preferred one first. -/
def matchesAt (p : Program) (input : Input) (start : Nat) : List Slots :=
  (p.results input (0, start) (Slots.blank (input.slotsFor p))).map (·.2)

/-- The match to be found from `pos` on. -/
def best? (p : Program) (input : Input) (pos : Nat) : Option Slots :=
  (startsFrom p input pos).findSome? fun start => outcome p.longest none (matchesAt p input start)

variable {p : Program} {input : Input}

theorem mem_startsFrom {pos start : Nat} :
    start ∈ startsFrom p input pos ↔
      pos ≤ start ∧ start ≤ input.haystack.size ∧ admits p input start := by
  have hrange : pos ≤ start ∧ start < pos + (input.haystack.size + 1 - pos) ↔
      pos ≤ start ∧ start ≤ input.haystack.size := by omega
  rw [startsFrom, List.mem_filter, List.mem_range'_1, hrange, and_assoc]

/-- A search begins with the starts that the input admits, or with one if the program is bound to
the start of the haystack. -/
theorem mem_startsFrom_start {start : Nat} :
    start ∈ startsFrom p input input.start ↔
      input.Admits start ∧ (p.anchored → start = input.start) := by
  have hanchored : (!input.anchoredFor p || start == input.start) = true ↔
      (input.anchoredStart → start = input.start) ∧ (p.anchored → start = input.start) := by
    rw [Input.anchoredFor]
    cases input.anchoredStart <;> cases p.anchored <;> simp
  rw [mem_startsFrom, admits, Bool.and_eq_true, hanchored]
  exact ⟨fun ⟨hle, hsize, ⟨heq, hp⟩, hboundary⟩ => ⟨⟨hle, hsize, heq, hboundary⟩, hp⟩,
    fun ⟨⟨hle, hsize, heq, hboundary⟩, hp⟩ => ⟨hle, hsize, ⟨heq, hp⟩, hboundary⟩⟩

theorem startsFrom_of_le {pos : Nat} (hpos : pos ≤ input.haystack.size) :
    startsFrom p input pos =
      (if admits p input pos then [pos] else []) ++ startsFrom p input (pos + 1) := by
  have hlength : input.haystack.size + 1 - pos = input.haystack.size + 1 - (pos + 1) + 1 := by
    omega
  rw [startsFrom, hlength, List.range'_succ, List.filter_cons, ← startsFrom]
  split <;> rfl

theorem startsFrom_of_lt {pos : Nat} (hpos : input.haystack.size < pos) :
    startsFrom p input pos = [] := by
  rw [startsFrom, Nat.sub_eq_zero_of_le hpos]
  rfl

/-- Behind the start of the search, a match that is bound to start there may not start. -/
theorem startsFrom_of_anchoredFor {pos : Nat} (hanchored : input.anchoredFor p)
    (hpos : input.start < pos) : startsFrom p input pos = [] := by
  rw [List.eq_nil_iff_forall_not_mem]
  intro start hmem
  obtain ⟨hle, -, hadmits⟩ := mem_startsFrom.mp hmem
  simp only [admits, hanchored, Bool.not_true, Bool.false_or, Bool.and_eq_true, beq_iff_eq]
    at hadmits
  omega

theorem best?_of_admits {pos : Nat} (hpos : pos ≤ input.haystack.size) (h : admits p input pos) :
    best? p input pos =
      (outcome p.longest none (matchesAt p input pos)).or (best? p input (pos + 1)) := by
  rw [best?, startsFrom_of_le hpos, if_pos h, List.singleton_append, List.findSome?_cons]
  cases outcome p.longest none (matchesAt p input pos) <;> rfl

/-- A position where no match may start, or from which none leads on, may be passed over. -/
theorem best?_succ {pos : Nat} (hpos : pos ≤ input.haystack.size)
    (h : admits p input pos → matchesAt p input pos = []) :
    best? p input pos = best? p input (pos + 1) := by
  by_cases hadmits : admits p input pos
  · rw [best?_of_admits hpos hadmits, h hadmits, outcome_eq_none_iff.mpr rfl, Option.none_or]
  · rw [best?, startsFrom_of_le hpos, if_neg hadmits, List.nil_append, best?]

theorem best?_eq_none {pos : Nat} (h : ∀ start ∈ startsFrom p input pos,
    matchesAt p input start = []) : best? p input pos = none := by
  rw [best?, List.findSome?_eq_none_iff]
  intro start hmem
  rw [h start hmem, outcome_eq_none_iff]

theorem best?_eq_none_iff {pos : Nat} :
    best? p input pos = none ↔ ∀ start ∈ startsFrom p input pos, matchesAt p input start = [] := by
  refine ⟨fun h start hmem => ?_, best?_eq_none⟩
  rw [best?, List.findSome?_eq_none_iff] at h
  exact outcome_eq_none_iff.mp (h start hmem)

/-- The match that is found starts at the first position from which there is one. -/
theorem best?_eq_some_iff {pos : Nat} {m : Slots} :
    best? p input pos = some m ↔
      ∃ start ∈ startsFrom p input pos, outcome p.longest none (matchesAt p input start) = some m ∧
        ∀ start' ∈ startsFrom p input pos, start' < start → matchesAt p input start' = [] := by
  have hsorted : (startsFrom p input pos).Pairwise (· < ·) :=
    List.Pairwise.filter _ List.pairwise_lt_range'
  rw [best?]
  revert hsorted
  induction startsFrom p input pos with
  | nil => simp
  | cons start starts ih =>
    intro hsorted
    obtain ⟨hfirst, hrest⟩ := List.pairwise_cons.mp hsorted
    rw [List.findSome?_cons]
    cases hkept : outcome p.longest none (matchesAt p input start) with
    | some m' =>
      constructor
      · intro heq
        obtain rfl : m' = m := Option.some.inj heq
        refine ⟨start, List.mem_cons_self, hkept, fun start' hmem hlt => ?_⟩
        rcases List.mem_cons.mp hmem with rfl | hmem
        · exact absurd hlt (Nat.lt_irrefl _)
        · exact absurd (Nat.lt_trans hlt (hfirst start' hmem)) (Nat.lt_irrefl _)
      · rintro ⟨start', hmem, hm, hbefore⟩
        rcases List.mem_cons.mp hmem with rfl | hmem
        · exact hkept.symm.trans hm
        · rw [hbefore start List.mem_cons_self (hfirst start' hmem),
            outcome_eq_none_iff.mpr rfl] at hkept
          cases hkept
    | none =>
      refine (ih hrest).trans ⟨?_, ?_⟩
      · rintro ⟨start', hmem, hm, hbefore⟩
        exact ⟨start', List.mem_cons_of_mem start hmem, hm,
          List.forall_mem_cons.mpr ⟨fun _ => outcome_eq_none_iff.mp hkept, hbefore⟩⟩
      · rintro ⟨start', hmem, hm, hbefore⟩
        rcases List.mem_cons.mp hmem with rfl | hmem
        · rw [hkept] at hm
          cases hm
        · exact ⟨start', hmem, hm, fun x hx => hbefore x (List.mem_cons_of_mem start hx)⟩

/-- The match that a path ends with, if it does. -/
def ending (p : Program) (input : Input) (a : Node × Slots) : List Slots :=
  if p.accepts input a.1 then [a.2] else []

theorem flatMap_ite_singleton {α β : Type} (q : α → Bool) (f : α → β) (as : List α) :
    (as.flatMap fun a => if q a then [f a] else []) = (as.filter q).map f := by
  induction as with
  | nil => rfl
  | cons a as ih =>
    rw [List.flatMap_cons, ih, List.filter_cons]
    split <;> rfl

theorem flatMap_ending (as : List (Node × Slots)) :
    as.flatMap (ending p input) = (as.filter fun a => p.accepts input a.1).map (·.2) :=
  flatMap_ite_singleton (fun a : Node × Slots => p.accepts input a.1) Prod.snd as

/-- Of two paths that end at one node, the one that began first covers the other. -/
theorem covers_of_isBegun (hp : p.Regular) {longest : Bool} {start start' : Nat} {c : Node}
    {x y : Slots} (hx : IsBegun p start c x) (hy : IsBegun p start' c y) (hle : start ≤ start')
    (hat : p.instrs[c.1]? = some .accept) : Covers longest x y := by
  obtain ⟨hxstart, hxstop⟩ := hx.start_stop_eq hp hat
  obtain ⟨hystart, hystop⟩ := hy.start_stop_eq hp hat
  rw [covers_iff, hxstart, hxstop, hystart, hystop]
  omega

theorem coversAll_ending (hp : p.Regular) {longest : Bool} {start start' : Nat} {a b : Node × Slots}
    (ha : IsBegun p start a.1 a.2) (hb : IsBegun p start' b.1 b.2) (hle : start ≤ start')
    (heq : a.1 = b.1) : CoversAll longest (ending p input a) (ending p input b) := by
  intro y hy
  rw [ending] at hy
  split at hy
  · next haccepts =>
    obtain rfl := List.mem_singleton.mp hy
    rw [← heq] at haccepts hb
    refine ⟨a.2, by rw [ending, if_pos haccepts]; exact List.mem_singleton_self _, ?_⟩
    exact covers_of_isBegun hp ha hb hle (Program.instr_of_accepts haccepts)
  · cases hy

theorem two_le_slotsFor (p : Program) (input : Input) : 2 ≤ input.slotsFor p := by
  unfold Input.slotsFor Program.slotCount
  split <;> omega

/-- A search keeps both slots of a group or neither. -/
theorem two_dvd_slotsFor (p : Program) (input : Input) : 2 ∣ input.slotsFor p := by
  unfold Input.slotsFor Program.slotCount
  split
  · exact Nat.dvd_mul_right 2 _
  · exact Nat.dvd_refl 2

theorem isBegun_of_mem_matchesAt (hp : p.Regular) {start : Nat} {m : Slots}
    (hm : m ∈ matchesAt p input start) :
    ∃ c, p.instrs[c.1]? = some .accept ∧ IsBegun p start c m := by
  obtain ⟨a, ha, rfl⟩ := List.mem_map.mp hm
  exact ⟨a.1, Program.instr_of_accepts (Program.accepts_of_mem_results ha),
    (IsBegun.blank hp (two_le_slotsFor p input) start).of_mem_results hp ha⟩

theorem start_of_mem_matchesAt (hp : p.Regular) {start : Nat} {m : Slots}
    (hm : m ∈ matchesAt p input start) : m.start = start := by
  obtain ⟨c, hat, hbegun⟩ := isBegun_of_mem_matchesAt hp hm
  exact (hbegun.start_stop_eq hp hat).1

/-- A match stores where it starts and where it ends. -/
theorem offsets_of_mem_matchesAt (hp : p.Regular) {start : Nat} {m : Slots}
    (hm : m ∈ matchesAt p input start) :
    m.offset? 0 = some start ∧ m.offset? 1 = some m.stop := by
  obtain ⟨c, hat, hbegun⟩ := isBegun_of_mem_matchesAt hp hm
  rw [hbegun.stop_eq hat]
  refine ⟨hbegun.offset_zero fun hzero => ?_, hbegun.offset_one hat⟩
  rw [hzero, hp.first] at hat
  cases hat

theorem size_of_mem_matchesAt {start : Nat} {m : Slots} (hm : m ∈ matchesAt p input start) :
    m.size = input.slotsFor p := by
  obtain ⟨a, ha, rfl⟩ := List.mem_map.mp hm
  rw [Program.size_of_mem_results ha, Slots.size_blank]

/-- A later start counts only if there is no match from an earlier one. -/
theorem outcome_flatMap_matchesAt (hp : p.Regular) (pos : Nat) :
    outcome p.longest none ((startsFrom p input pos).flatMap (matchesAt p input)) =
      best? p input pos := by
  have hsorted : (startsFrom p input pos).Pairwise (· < ·) :=
    List.Pairwise.filter _ List.pairwise_lt_range'
  rw [best?]
  revert hsorted
  induction startsFrom p input pos with
  | nil => exact fun _ => outcome_eq_none_iff.mpr rfl
  | cons start starts ih =>
    intro hsorted
    rw [List.pairwise_cons] at hsorted
    have hcovers : ∀ x ∈ matchesAt p input start, ∀ y ∈ starts.flatMap (matchesAt p input),
        Covers p.longest x y := by
      intro x hx y hy
      obtain ⟨start', hmem, hy⟩ := List.mem_flatMap.mp hy
      rw [covers_iff, start_of_mem_matchesAt hp hx, start_of_mem_matchesAt hp hy]
      exact fun _ => Or.inl (hsorted.1 start' hmem)
    rw [List.flatMap_cons, outcome_none_append hcovers, ih hsorted.2, List.findSome?_cons]
    cases outcome p.longest none (matchesAt p input start) <;> rfl

/-! ## What the summaries exclude -/

theorem matchesAt_eq_nil_iff {start : Nat} (hstart : input.start ≤ start)
    (hsize : start ≤ input.haystack.size) :
    matchesAt p input start = [] ↔
      ∀ c, p.Reaches input.haystack (0, start) c → p.accepts input c = false := by
  rw [matchesAt, List.map_eq_nil_iff]
  exact Program.results_eq_nil_iff hstart hsize

theorem matchesAt_eq_nil_of_forall {start : Nat} (hstart : input.start ≤ start)
    (hsize : start ≤ input.haystack.size)
    (h : ∀ c, p.Reaches input.haystack (0, start) c → p.instrs[c.1]? ≠ some .accept) :
    matchesAt p input start = [] := by
  refine (matchesAt_eq_nil_iff hstart hsize).mpr fun c hc => ?_
  by_contra haccepts
  exact h c hc (Program.instr_of_accepts (Bool.eq_true_of_not_eq_false haccepts))

/-- A match of an anchored program starts at the start of the haystack. -/
theorem matchesAt_eq_nil_of_anchored (hs : p.Summarized) (hanchored : p.anchored) {start : Nat}
    (hstart : input.start ≤ start) (hsize : start ≤ input.haystack.size) (hpos : 0 < start) :
    matchesAt p input start = [] := by
  refine matchesAt_eq_nil_of_forall hstart hsize fun c hc hat => ?_
  have := (Program.lead_agrees hsize hat hc).anchored (hs.anchored ▸ hanchored)
  omega

/-- A start at which the search does not look has no match. -/
theorem matchesAt_eq_nil_of_notMem_startsFrom (hs : p.Summarized) {start : Nat}
    (hstart : input.Admits start) (hnot : start ∉ startsFrom p input input.start) :
    matchesAt p input start = [] := by
  rw [mem_startsFrom_start, not_and, Classical.not_imp] at hnot
  obtain ⟨hanchored, hne⟩ := hnot hstart
  have hpos : 0 < start :=
    Nat.lt_of_le_of_lt (Nat.zero_le _) (Nat.lt_of_le_of_ne hstart.le (Ne.symm hne))
  exact matchesAt_eq_nil_of_anchored hs hanchored hstart.le hstart.le_size hpos

theorem best?_start_eq_none_iff (hs : p.Summarized) :
    best? p input input.start = none ↔
      ∀ start, input.Admits start → matchesAt p input start = [] := by
  rw [best?_eq_none_iff]
  refine ⟨fun hnone start hstart => ?_,
    fun hnone start hmem => hnone start (mem_startsFrom_start.mp hmem).1⟩
  by_cases hmem : start ∈ startsFrom p input input.start
  · exact hnone start hmem
  · exact matchesAt_eq_nil_of_notMem_startsFrom hs hstart hmem

/-- The match to be found is one from the first start that has any. -/
theorem best?_start_eq_some_iff (hs : p.Summarized) {m : Slots} :
    best? p input input.start = some m ↔
      ∃ start, input.Admits start ∧ outcome p.longest none (matchesAt p input start) = some m ∧
        ∀ start' < start, input.Admits start' → matchesAt p input start' = [] := by
  rw [best?_eq_some_iff]
  constructor
  · rintro ⟨start, hmem, hm, hbefore⟩
    refine ⟨start, (mem_startsFrom_start.mp hmem).1, hm, fun start' hlt hstart' => ?_⟩
    by_cases hmem' : start' ∈ startsFrom p input input.start
    · exact hbefore start' hmem' hlt
    · exact matchesAt_eq_nil_of_notMem_startsFrom hs hstart' hmem'
  · rintro ⟨start, hstart, hm, hbefore⟩
    refine ⟨start, ?_, hm, fun start' hmem hlt =>
      hbefore start' hlt (mem_startsFrom_start.mp hmem).1⟩
    by_contra hnot
    rw [matchesAt_eq_nil_of_notMem_startsFrom hs hstart hnot, outcome_eq_none_iff.mpr rfl] at hm
    cases hm

theorem matchesAt_eq_nil_of_firstBytes (hs : p.Summarized) {bytes : ByteSet}
    (hbytes : p.firstBytes? = some bytes) {start : Nat} (hstart : input.start ≤ start)
    (hsize : start ≤ input.haystack.size) (hnot : bytes.containsAt input.haystack start = false) :
    matchesAt p input start = [] := by
  refine matchesAt_eq_nil_of_forall hstart hsize fun c hc hat => ?_
  obtain ⟨-, b, hb, hmem⟩ := Summary.exists_firstByte (hs.firstBytes ▸ hbytes) hat hc
  rw [ByteSet.containsAt, hb, Option.any_some, hmem] at hnot
  cases hnot

theorem matchesAt_eq_nil_of_literal (hs : p.Summarized) {lit : LiteralPrefix}
    (hlit : p.literalPrefix? = some lit) {start : Nat} (hstart : input.start ≤ start)
    (hsize : start ≤ input.haystack.size) (hnot : lit.isAt input.haystack start = false) :
    matchesAt p input start = [] := by
  refine matchesAt_eq_nil_of_forall hstart hsize fun c hc hat => ?_
  have hagrees := Program.lead_agrees hsize hat hc
  rw [hs.literal, Summary.Lead.literal?] at hlit
  split at hlit
  · cases hlit
  · obtain rfl := Option.some.inj hlit
    rw [LiteralPrefix.isAt, hagrees.bytes] at hnot
    cases hnot

end Search
end LinearRegex
