import LinearRegex.Proofs.Search.Loop
import LinearRegex.Proofs.Search.Threads

/-!
# The search in lockstep

While the threads consume one byte, the match to be kept of all that they lead to stays the same
(`isAdvanced_advance`).  Positions where no match starts may be passed over while there are no
threads (`matchesAt_of_candidate?`).  So a search finds the match to be found (`lockstep_eq`),
whatever earlier searches have left behind.
-/

namespace LinearRegex

namespace Lockstep

open Search (outcome outcome_nil Covers CoversAll best? matchesAt startsFrom admits)

variable {p : Program} {input : Input} {pos : Nat}

/-! ## Consuming a byte -/

theorem yield_of_accepts {t : Thread} (hi : p.instrs[t.index]? = some .accept)
    (hend : input.mayEndAt pos) : p.yield input pos t = [((t.index, pos), t.slots)] := by
  have hnext : p.nextAt? input.haystack pos t.index = none := by
    rw [Program.nextAt?_of_instr hi, Instr.nextAt?_of_not_isConsuming rfl]
  rw [Program.yield, Program.accepts_of_instr hi, hend, hnext]
  rfl

theorem yield_of_nextAt? {t : Thread} {next : Nat}
    (hnext : p.nextAt? input.haystack pos t.index = some next) :
    p.yield input pos t = p.results input (next, pos + 1) t.slots := by
  obtain ⟨instr, hi⟩ := Program.exists_instr (Program.lt_size_of_nextAt? hnext)
  have hconsuming : instr.isConsuming := by
    rw [Program.nextAt?_of_instr hi] at hnext
    exact Instr.isConsuming_of_nextAt? hnext
  rw [Program.yield, Program.accepts_eq_false hi (Instr.ne_accept_of_isConsuming hconsuming), hnext]
  rfl

theorem yield_eq_nil {t : Thread} (haccepts : p.accepts input (t.index, pos) = false)
    (hnext : p.nextAt? input.haystack pos t.index = none) : p.yield input pos t = [] := by
  rw [Program.yield, haccepts, hnext]
  rfl

/-- A thread that can consume a byte has stored where it began. -/
theorem beginning_of_nextAt? (hp : p.Regular) {h : ByteArray} {t : Thread} {next : Nat}
    (hnext : p.nextAt? h pos t.index = some next) : t.beginning pos = t.slots.start := by
  rw [Thread.beginning, if_neg]
  intro hzero
  rw [hzero, Program.nextAt?_of_instr hp.first, Instr.nextAt?_of_not_isConsuming rfl] at hnext
  cases hnext

/-- The path of a thread that consumes a byte goes on from where it began. -/
theorem isBegun_next (hp : p.Regular) {h : ByteArray} {t : Thread} {next : Nat}
    (ht : t.IsBegun p pos) (hnext : p.nextAt? h pos t.index = some next) :
    Thread.IsBegun p (pos + 1) ⟨next, t.slots⟩ ∧
      Thread.beginning (pos + 1) ⟨next, t.slots⟩ = t.beginning pos := by
  have hbegun := ht.next hp (Program.mem_successors_of_nextAt? hnext)
  rw [Program.stored_of_nextAt? hnext] at hbegun
  exact ⟨Thread.isBegun_of hbegun, Thread.beginning_eq hbegun⟩

/-- The matches of later starts count while nothing is matched. -/
def later (matched? : Option Slots) (zs : List Slots) : List Slots :=
  if matched?.isNone then zs else []

@[simp] theorem later_none (zs : List Slots) : later none zs = zs :=
  rfl

@[simp] theorem later_some (m : Slots) (zs : List Slots) : later (some m) zs = [] :=
  rfl

theorem isSome_keepBetter (matched? : Option Slots) (x : Slots) :
    (Search.keepBetter matched? x).isSome := by
  unfold Search.keepBetter
  split
  · rfl
  · next hworse =>
    cases matched? with
    | none => exact absurd rfl hworse
    | some m => rfl

/-- A match in front of the later starts covers their matches. -/
theorem outcome_append_later {longest : Bool} {x : Slots} {xs zs : List Slots} (hx : x ∈ xs)
    (hzs : ∀ z ∈ zs, x.start < z.start) (matched? : Option Slots) :
    outcome longest matched? (xs ++ later matched? zs) = outcome longest matched? xs := by
  cases matched? with
  | some m => rw [later_some, List.append_nil]
  | none =>
    have hcovers : CoversAll longest xs zs :=
      fun z hz => ⟨x, hx, Search.covers_iff.mpr fun _ => Or.inl (hzs z hz)⟩
    have := Search.outcome_append_of_coversAll none hcovers []
    rwa [List.append_nil, List.append_nil] at this

/-- A match that ends here is weighed before those that end further on. -/
theorem outcome_keepBetter_later {x : Slots} {ws us zs : List Slots}
    (hws : ∀ w ∈ ws, x.stop ≠ w.stop) (hzs : ∀ z ∈ zs, x.start < z.start)
    (matched? : Option Slots) :
    outcome true (Search.keepBetter matched? x)
        (ws ++ us ++ later (Search.keepBetter matched? x) zs) =
      outcome true matched? (ws ++ x :: us ++ later matched? zs) := by
  obtain ⟨m, hm⟩ := Option.isSome_iff_exists.mp (isSome_keepBetter matched? x)
  have hmem : x ∈ ws ++ x :: us := List.mem_append_right ws List.mem_cons_self
  calc
    _ = outcome true (Search.keepBetter matched? x) (ws ++ us) := by
      rw [hm, later_some, List.append_nil]
    _ = outcome true matched? (ws ++ x :: us) := (Search.outcome_longest_move hws us).symm
    _ = _ := (outcome_append_later hmem hzs matched?).symm

/-- The first match cuts off what stands behind it. -/
theorem outcome_first (x : Slots) (ws us : List Slots) (matched? : Option Slots) :
    outcome false (some x) ws = outcome false matched? (ws ++ x :: us) := by
  cases ws <;> rfl

/-- What `ts` lead to at `pos` has become part of what the next threads lead to, or of the match.
`zs` are the matches of later starts. -/
structure IsAdvanced (p : Program) (input : Input) (pos : Nat) (zs : List Slots)
    (ts : List Thread) (r r' : Round) : Prop where
  outcome_eq : outcome p.longest r'.matched?
      (yields p input (pos + 1) r'.next.threads.toList ++ later r'.matched? zs) =
    outcome p.longest r.matched?
      (yields p input (pos + 1) r.next.threads.toList ++ yields p input pos ts ++
        later r.matched? zs)
  next : r'.next.IsFit p input.haystack (pos + 1)
  matched : ∀ m ∈ r'.matched?, m.start ≤ pos

theorem IsOrdered.tail {t : Thread} {ts : List Thread} (h : IsOrdered p pos (t :: ts)) :
    IsOrdered p pos ts :=
  ⟨fun u hu => h.begun u (List.mem_cons_of_mem t hu), (List.pairwise_cons.mp h.sorted).2⟩

/-- No match of a thread at `pos` ends before `pos`. -/
theorem le_stop_of_mem_yields (hp : p.Regular) {ts : List Thread} (hts : IsOrdered p pos ts)
    {m : Slots} (hm : m ∈ yields p input pos ts) : pos ≤ m.stop := by
  obtain ⟨t, ht, hm⟩ := List.mem_flatMap.mp hm
  obtain ⟨a, ha, rfl⟩ := List.mem_map.mp hm
  obtain ⟨hbegun, hat⟩ := isBegun_of_mem_yield hp (hts.begun t ht) ha
  rw [(hbegun.start_stop_eq hp hat).2]
  rcases List.mem_append.mp ha with ha | ha
  · split at ha
    · obtain rfl := List.mem_singleton.mp ha
      exact Nat.le_refl _
    · cases ha
  · split at ha
    · exact Nat.le_trans (Nat.le_succ pos) (Program.le_of_mem_results ha)
    · cases ha

/-- What the threads that have not consumed the byte yet need to know. -/
structure IsAdvancing (p : Program) (input : Input) (pos : Nat) (ts : List Thread)
    (matched? : Option Slots) (set : ThreadSet) : Prop where
  ordered : IsOrdered p pos ts
  next : set.IsFit p input.haystack (pos + 1)
  beginnings : ∀ u ∈ set.threads.toList, ∀ t ∈ ts, u.beginning (pos + 1) ≤ t.beginning pos
  matched : ∀ m ∈ matched?, m.start ≤ pos

theorem IsAdvancing.tail {t : Thread} {ts : List Thread} {matched? : Option Slots}
    {set : ThreadSet} (h : IsAdvancing p input pos (t :: ts) matched? set) :
    IsAdvancing p input pos ts matched? set :=
  ⟨h.ordered.tail, h.next, fun u hu t' ht' => h.beginnings u hu t' (List.mem_cons_of_mem t ht'),
    h.matched⟩

section

variable {zs : List Slots} {t : Thread} {ts : List Thread} {r r' : Round} {steps : Nat}

theorem IsAdvanced.skip (hyield : p.yield input pos t = [])
    (h : IsAdvanced p input pos zs ts { r with steps } r') :
    IsAdvanced p input pos zs (t :: ts) r r' := by
  refine ⟨?_, h.next, h.matched⟩
  rw [yields_cons, hyield]
  exact h.outcome_eq

/-- A match that a thread ends starts at `pos` or before. -/
theorem IsAdvancing.start_le (hp : p.Regular) {matched? : Option Slots} {set : ThreadSet}
    (h : IsAdvancing p input pos (t :: ts) matched? set)
    (hi : p.instrs[t.index]? = some .accept) : t.slots.start ≤ pos := by
  have hbegun := h.ordered.begun t List.mem_cons_self
  exact (hbegun.start_stop_eq hp hi).1 ▸ hbegun.le

theorem IsAdvancing.keepBetter (hp : p.Regular)
    (h : IsAdvancing p input pos (t :: ts) r.matched? r.next)
    (hi : p.instrs[t.index]? = some .accept) :
    IsAdvancing p input pos ts (Search.keepBetter r.matched? t.slots) r.next := by
  refine ⟨h.tail.ordered, h.next, h.tail.beginnings, fun m hm => ?_⟩
  rw [Search.keepBetter] at hm
  split at hm
  · obtain rfl := Option.some.inj hm
    exact h.start_le hp hi
  · exact h.matched m hm

/-- Where the longest match is asked for, the match that a thread ends is weighed against the one
found before. -/
theorem IsAdvanced.keepBetter (hp : p.Regular) (hlongest : p.longest)
    (hzs : ∀ z ∈ zs, pos < z.start) (hbefore : IsAdvancing p input pos (t :: ts) r.matched? r.next)
    (hi : p.instrs[t.index]? = some .accept) (hend : input.mayEndAt pos)
    (h : IsAdvanced p input pos zs ts
      { r with matched? := Search.keepBetter r.matched? t.slots, steps } r') :
    IsAdvanced p input pos zs (t :: ts) r r' := by
  have hbegun := hbefore.ordered.begun t List.mem_cons_self
  have hstop := (hbegun.start_stop_eq hp hi).2
  refine ⟨h.outcome_eq.trans ?_, h.next, h.matched⟩
  rw [yields_cons, yield_of_accepts hi hend, hlongest]
  refine outcome_keepBetter_later (fun w hw heq => ?_) (fun z hz => ?_) r.matched?
  · have := le_stop_of_mem_yields hp hbefore.next.ordered hw
    omega
  · exact Nat.lt_of_le_of_lt (hbefore.start_le hp hi) (hzs z hz)

/-- Otherwise the match that a thread ends cuts off the threads behind it. -/
theorem isAdvanced_first (hp : p.Regular) (hfirst : p.longest = false)
    (hbefore : IsAdvancing p input pos (t :: ts) r.matched? r.next)
    (hi : p.instrs[t.index]? = some .accept) (hend : input.mayEndAt pos) :
    IsAdvanced p input pos zs (t :: ts) r { r with matched? := some t.slots, steps } := by
  refine ⟨?_, hbefore.next, fun m hm => ?_⟩
  · rw [yields_cons, yield_of_accepts hi hend, hfirst, later_some, List.append_nil,
      List.map_singleton, List.singleton_append, List.append_assoc, List.cons_append]
    exact outcome_first _ _ _ _
  · obtain rfl := Option.some.inj hm
    exact hbefore.start_le hp hi

/-- A thread that started behind the longest match found so far may be dropped. -/
theorem IsAdvanced.drop (hp : p.Regular) (hbefore : IsOrdered p pos (t :: ts)) {next : Nat}
    (hnext : p.nextAt? input.haystack pos t.index = some next)
    (hdrop : p.longest && r.matched?.any (·.start < t.slots.start))
    (h : IsAdvanced p input pos zs ts { r with steps } r') :
    IsAdvanced p input pos zs (t :: ts) r r' := by
  have hbegun := hbefore.begun t List.mem_cons_self
  obtain ⟨hlongest, m, hm, hlt⟩ : p.longest = true ∧ ∃ m, r.matched? = some m ∧
      m.start < t.slots.start := by
    rw [Bool.and_eq_true, Option.any_eq_true] at hdrop
    obtain ⟨hlongest, m, hm, hlt⟩ := hdrop
    exact ⟨hlongest, m, hm, of_decide_eq_true hlt⟩
  have hstarts : t.slots.start = t.beginning pos :=
    (beginning_of_nextAt? hp hnext).symm
  -- A match that starts behind the one found earlier is covered by it.
  have hcovers : ∀ y ∈ (p.yield input pos t).map (·.2), Covers true m y := by
    intro y hy
    rw [Search.covers_iff, start_of_mem_yield hp hbegun hy, ← hstarts]
    exact fun _ => Or.inl hlt
  have hmoved := Search.outcome_of_covers hcovers
    (yields p input (pos + 1) r.next.threads.toList) (yields p input pos ts)
  refine ⟨h.outcome_eq.trans ?_, h.next, h.matched⟩
  rw [yields_cons, hlongest, hm, later_some, List.append_nil, List.append_nil, ← List.append_assoc]
  exact hmoved.symm

/-- Together with the thread that consumes the byte, all that can be reached with it is next. -/
theorem IsAdvancing.close (hp : p.Regular)
    (h : IsAdvancing p input pos (t :: ts) r.matched? r.next) {next : Nat}
    (hnext : p.nextAt? input.haystack pos t.index = some next) :
    IsAdvancing p input pos ts r.matched?
      (close p input.haystack (pos + 1) [.visit next] ⟨t.slots, r.next, steps⟩).set := by
  obtain ⟨hbegun, hbeginning⟩ := isBegun_next hp (h.ordered.begun t List.mem_cons_self) hnext
  have hset : ThreadSet.IsFit p input.haystack (pos + 1) (Closure.mk t.slots r.next steps).set :=
    h.next
  refine ⟨h.tail.ordered, isFit_close hp hset hbegun fun u hu => ?_, ?_, h.matched⟩
  · rw [hbeginning]
    exact h.beginnings u hu t List.mem_cons_self
  · intro u hu v hv
    rcases beginning_of_mem_close hp hset hbegun hu with hu | hu
    · exact h.tail.beginnings u hu v hv
    · rw [hu, hbeginning]
      exact (List.pairwise_cons.mp h.ordered.sorted).1 v hv

/-- A thread that consumes the byte leads to what can be reached with it. -/
theorem IsAdvanced.close (hp : p.Regular) (hstart : input.start ≤ pos)
    (hbefore : IsAdvancing p input pos (t :: ts) r.matched? r.next) {next steps' : Nat}
    (hnext : p.nextAt? input.haystack pos t.index = some next)
    (h : IsAdvanced p input pos zs ts
      { r with
        next := (Lockstep.close p input.haystack (pos + 1) [.visit next]
          ⟨t.slots, r.next, steps⟩).set
        steps := steps' } r') :
    IsAdvanced p input pos zs (t :: ts) r r' := by
  have hsize : pos + 1 ≤ input.haystack.size := Program.pos_lt_of_nextAt? hnext
  obtain ⟨hbegun, hbeginning⟩ :=
    isBegun_next hp (hbefore.ordered.begun t List.mem_cons_self) hnext
  have hset : ThreadSet.IsFit p input.haystack (pos + 1) (Closure.mk t.slots r.next steps).set :=
    hbefore.next
  have hbeginnings : ∀ u ∈ r.next.threads.toList,
      u.beginning (pos + 1) ≤ Thread.beginning (pos + 1) ⟨next, t.slots⟩ := by
    intro u hu
    rw [hbeginning]
    exact hbefore.beginnings u hu t List.mem_cons_self
  have hclose := outcome_close hp hset hbegun hbeginnings (by omega) hsize p.longest r.matched?
    (yields p input pos ts ++ later r.matched? zs)
  refine ⟨h.outcome_eq.trans ?_, h.next, h.matched⟩
  rw [yields_cons, yield_of_nextAt? hnext]
  simp only [List.append_assoc] at hclose ⊢
  exact hclose

end

/-- One byte further, the match to be kept is the same. -/
theorem isAdvanced_advance (hp : p.Regular) (hstart : input.start ≤ pos)
    {zs : List Slots} (hzs : ∀ z ∈ zs, pos < z.start) {ts : List Thread} {r : Round}
    (h : IsAdvancing p input pos ts r.matched? r.next) :
    IsAdvanced p input pos zs ts r (advance p input pos ts r) := by
  fun_induction advance p input pos ts r with
  | case1 r =>
    refine ⟨?_, h.next, h.matched⟩
    rw [yields_nil, List.append_nil]
  | case2 t ts r r' hi hend hlongest ih =>
    exact IsAdvanced.keepBetter hp hlongest hzs h hi hend (ih (h.keepBetter hp hi))
  | case3 t ts r r' hi hend hlongest =>
    exact isAdvanced_first hp (Bool.eq_false_of_not_eq_true hlongest) h hi hend
  | case4 t ts r r' hi hend ih =>
    refine IsAdvanced.skip (yield_eq_nil ?_ ?_) (ih h.tail)
    · rw [Program.accepts_of_instr hi, Bool.eq_false_of_not_eq_true hend, Bool.and_false]
    · rw [Program.nextAt?_of_instr hi, Instr.nextAt?_of_not_isConsuming rfl]
  | case5 t ts r r' instr hne hi next hnext hdrop ih =>
    rw [← Program.nextAt?_of_instr hi] at hnext
    exact IsAdvanced.drop hp h.ordered hnext hdrop (ih h.tail)
  | case6 t ts r r' instr hne hi next hnext hdrop c ih =>
    rw [← Program.nextAt?_of_instr hi] at hnext
    exact IsAdvanced.close hp hstart h hnext (ih (h.close hp hnext))
  | case7 t ts r r' instr hne hi hnext ih =>
    rw [← Program.nextAt?_of_instr hi] at hnext
    exact IsAdvanced.skip (yield_eq_nil (Program.accepts_eq_false hi hne) hnext) (ih h.tail)
  | case8 t ts r r' hi ih =>
    refine IsAdvanced.skip (yield_eq_nil ?_ ?_) (ih h.tail) <;>
      simp [Program.accepts, Program.nextAt?, hi]

/-- Threads that accept nothing have no threads at the next position. -/
theorem next_advance_of_forall_eq_none {ts : List Thread}
    (hnone : ∀ t ∈ ts, p.nextAt? input.haystack pos t.index = none) (r : Round) :
    (advance p input pos ts r).next = r.next := by
  fun_induction advance p input pos ts r with
  | case1 | case3 => rfl
  | case2 _ _ _ _ _ _ _ ih => exact ih (List.forall_mem_cons.mp hnone).2
  | case4 _ _ _ _ _ _ ih => exact ih (List.forall_mem_cons.mp hnone).2
  | case5 _ _ _ _ _ _ _ _ _ _ ih => exact ih (List.forall_mem_cons.mp hnone).2
  | case6 t ts r r' instr hne hi next hnextAt _ _ _ =>
    have hhead := (List.forall_mem_cons.mp hnone).1
    rw [Program.nextAt?_of_instr hi, hnextAt] at hhead
    cases hhead
  | case7 _ _ _ _ _ _ _ _ ih => exact ih (List.forall_mem_cons.mp hnone).2
  | case8 _ _ _ _ _ ih => exact ih (List.forall_mem_cons.mp hnone).2

/-- Nothing is left to consume at the end. -/
theorem next_advance_of_size_le (hsize : input.haystack.size ≤ pos) (ts : List Thread)
    (r : Round) : (advance p input pos ts r).next = r.next := by
  refine next_advance_of_forall_eq_none (fun t _ => ?_) r
  rw [Program.nextAt?, funext (Instr.nextAt?_of_size_le hsize), Option.bind_fun_none]

/-! ## Passing over positions -/

/-- There is no match from the positions that are passed over. -/
theorem matchesAt_of_candidate? (hs : p.Summarized) (hstart : input.start ≤ pos) {start : Nat}
    (hle : pos ≤ start) (hsize : start ≤ input.haystack.size)
    (hbefore : ∀ i, candidate? p input.haystack pos = some i → start < i) :
    matchesAt p input start = [] := by
  have hstart' := Nat.le_trans hstart hle
  unfold candidate? at hbefore
  split at hbefore
  · next lit hlit =>
    refine Search.matchesAt_eq_nil_of_literal hs hlit hstart' hsize ?_
    cases hfind : lit.find? input.haystack pos with
    | none => exact Haystack.first?_eq_none hfind start hle (Nat.lt_succ_of_le hsize)
    | some i => exact (Haystack.first?_eq_some hfind).2.2.2 start hle (hbefore i hfind)
  · next bytes _ hbytes =>
    cases hfind : bytes.find? input.haystack pos with
    | none =>
      refine Search.matchesAt_eq_nil_of_firstBytes hs hbytes hstart' hsize ?_
      rcases Nat.lt_or_eq_of_le hsize with hlt | rfl
      · exact Haystack.first?_eq_none hfind start hle hlt
      · rw [ByteSet.containsAt, getElem?_neg input.haystack _ (Nat.lt_irrefl _), Option.any_none]
    | some i =>
      refine Search.matchesAt_eq_nil_of_firstBytes hs hbytes hstart' hsize ?_
      exact (Haystack.first?_eq_some hfind).2.2.2 start hle (hbefore i hfind)
  · exact absurd (hbefore pos rfl) (Nat.not_lt_of_le hle)

/-! ## From position to position -/

/-- The matches that start at `pos` or behind it. -/
def matchesFrom (p : Program) (input : Input) (pos : Nat) : List Slots :=
  (startsFrom p input pos).flatMap (matchesAt p input)

theorem matchesFrom_of_le (hpos : pos ≤ input.haystack.size) :
    matchesFrom p input pos =
      (if admits p input pos then matchesAt p input pos else []) ++
        matchesFrom p input (pos + 1) := by
  rw [matchesFrom, Search.startsFrom_of_le hpos, List.flatMap_append, ← matchesFrom]
  split
  · rw [List.flatMap_singleton]
  · rfl

theorem matchesFrom_eq_nil (h : ∀ start ∈ startsFrom p input pos, matchesAt p input start = []) :
    matchesFrom p input pos = [] :=
  List.flatMap_eq_nil_iff.mpr h

/-- Positions without a match may be passed over. -/
theorem matchesFrom_eq_of_le {i : Nat} (hle : pos ≤ i) (hi : i ≤ input.haystack.size)
    (h : ∀ start, pos ≤ start → start < i → matchesAt p input start = []) :
    matchesFrom p input pos = matchesFrom p input i := by
  induction hle with
  | refl => rfl
  | step hle ih =>
    rename_i i
    rw [ih (by omega) fun start hstart hlt => h start hstart (by omega),
      matchesFrom_of_le (by omega), h i hle (Nat.lt_succ_self i), ite_self, List.nil_append]

theorem lt_start_of_mem_matchesFrom (hp : p.Regular) {m : Slots}
    (hm : m ∈ matchesFrom p input (pos + 1)) : pos < m.start := by
  obtain ⟨start, hstart, hm⟩ := List.mem_flatMap.mp hm
  rw [Search.start_of_mem_matchesAt hp hm]
  exact (Search.mem_startsFrom.mp hstart).1

/-- The match to be kept of all that the threads and the later starts lead to. -/
def prospect (p : Program) (input : Input) (matched? : Option Slots) (pos : Nat)
    (ts : List Thread) (start : Nat) : Option Slots :=
  outcome p.longest matched? (yields p input pos ts ++ later matched? (matchesFrom p input start))

/-- Where the search does not go on, there is nothing more to be found. -/
theorem prospect_of_resume?_eq_none (hs : p.Summarized) {s : ThreadSet} {matched? : Option Slots}
    (hstart : input.start ≤ pos) (h : resume? p input s matched? pos = none) :
    prospect p input matched? pos s.threads.toList pos = matched? := by
  unfold resume? at h
  split at h
  · next hempty =>
    rw [prospect, Array.toList_eq_nil_iff.mpr (Array.isEmpty_iff.mp hempty), yields_nil,
      List.nil_append]
    cases matched? with
    | some m => exact outcome_nil p.longest (some m)
    | none =>
      rw [later_none, matchesFrom_eq_nil, outcome_nil]
      intro start hmem
      obtain ⟨hle, hsize, -⟩ := Search.mem_startsFrom.mp hmem
      split at h
      · next hover =>
        have hanchored : input.anchoredFor p ∧ input.start < pos := by simpa using hover
        rw [Search.startsFrom_of_anchoredFor hanchored.1 hanchored.2] at hmem
        cases hmem
      · split at h
        · cases h
        · refine matchesAt_of_candidate? hs hstart hle hsize fun i hi => ?_
          rw [h] at hi
          cases hi
  · cases h

theorem le_size_of_candidate? (hpos : pos ≤ input.haystack.size) {i : Nat}
    (hi : candidate? p input.haystack pos = some i) : i ≤ input.haystack.size := by
  unfold candidate? at hi
  split at hi
  · exact Nat.le_of_lt_succ (Haystack.first?_eq_some hi).2.1
  · exact Nat.le_of_lt (Haystack.first?_eq_some hi).2.1
  · cases hi
    exact hpos

/-- Where the search goes on, there is as much to be found as before. -/
theorem prospect_of_resume?_eq_some (hs : p.Summarized) {s : ThreadSet} {matched? : Option Slots}
    (hstart : input.start ≤ pos) (hpos : pos ≤ input.haystack.size)
    (hset : s.IsFit p input.haystack pos) {i : Nat} (h : resume? p input s matched? pos = some i) :
    i ≤ input.haystack.size ∧ s.IsFit p input.haystack i ∧
      prospect p input matched? i s.threads.toList i =
        prospect p input matched? pos s.threads.toList pos := by
  unfold resume? at h
  split at h
  · next hempty =>
    split at h
    · cases h
    · next hover =>
      split at h
      · cases h
        exact ⟨hpos, hset, rfl⟩
      · have hle := le_of_candidate? h
        have hsize := le_size_of_candidate? hpos h
        have hthreads := Array.isEmpty_iff.mp hempty
        refine ⟨hsize, ThreadSet.isFit_of_isEmpty hset.marked hset.size hthreads, ?_⟩
        rw [prospect, prospect, hthreads, yields_nil, yields_nil,
          matchesFrom_eq_of_le hle hsize fun start hstart' hlt => ?_]
        refine matchesAt_of_candidate? hs hstart hstart' (by omega) fun j hj => ?_
        rw [h] at hj
        cases hj
        exact hlt
  · cases h
    exact ⟨hpos, hset, rfl⟩

theorem mayStartAt_eq (p : Program) (input : Input) (matched? : Option Slots) (pos : Nat) :
    mayStartAt p input matched? pos = (matched?.isNone && admits p input pos) := by
  rw [mayStartAt, admits, Bool.and_assoc]

/-- A new thread stands for the matches that start at its position. -/
theorem prospect_start (hp : p.Regular) {s : Scratch} (matched? : Option Slots)
    (hstart : input.start ≤ pos) (hpos : pos ≤ input.haystack.size)
    (hset : s.threads.IsFit p input.haystack pos) :
    (start p input matched? pos s).threads.IsFit p input.haystack pos ∧
      prospect p input matched? pos (start p input matched? pos s).threads.threads.toList
          (pos + 1) =
        prospect p input matched? pos s.threads.threads.toList pos := by
  rw [start, mayStartAt_eq]
  cases matched? with
  | some m => exact ⟨hset, rfl⟩
  | none =>
    rw [Option.isNone_none, Bool.true_and]
    by_cases hadmits : admits p input pos
    · rw [if_pos hadmits]
      have hblank := IsBegun.blank hp (Search.two_le_slotsFor p input) pos
      have hbegun : Thread.IsBegun p pos ⟨0, Slots.blank (input.slotsFor p)⟩ :=
        Thread.isBegun_of hblank
      have hbefore : ∀ u ∈ s.threads.threads.toList,
          u.beginning pos ≤ Thread.beginning pos ⟨0, Slots.blank (input.slotsFor p)⟩ :=
        fun u hu => (hset.ordered.begun u hu).le
      have hset' : ThreadSet.IsFit p input.haystack pos
          (Closure.mk (Slots.blank (input.slotsFor p)) s.threads s.steps).set := hset
      refine ⟨isFit_close hp hset' hbegun hbefore, ?_⟩
      have hclose := outcome_close hp hset' hbegun hbefore hstart hpos p.longest none
        (matchesFrom p input (pos + 1))
      rw [prospect, prospect, later_none, later_none, matchesFrom_of_le hpos, if_pos hadmits,
        matchesAt, ← List.append_assoc]
      exact hclose
    · rw [if_neg hadmits]
      refine ⟨hset, ?_⟩
      rw [prospect, prospect, matchesFrom_of_le hpos, if_neg hadmits, List.nil_append]

@[simp] theorem next_start (p : Program) (input : Input) (matched? : Option Slots) (pos : Nat)
    (s : Scratch) : (start p input matched? pos s).next = s.next := by
  unfold start
  split <;> rfl

theorem round_turn (p : Program) (input : Input) (c : Config) :
    (turn p input c).round =
      advance p input c.pos (turn p input c).threads.threads.toList
        ⟨c.matched?, c.scratch.next, (start p input c.matched? c.pos c.scratch).steps⟩ := by
  rw [turn, next_start]

/-! ## One step -/

/-- The threads stand for paths that have come to the position, and there are none for the next one
yet. -/
structure Config.IsFit (p : Program) (input : Input) (c : Config) : Prop where
  start_le : input.start ≤ c.pos
  le_size : c.pos ≤ input.haystack.size
  threads : c.scratch.threads.IsFit p input.haystack c.pos
  marked : c.scratch.next.IsMarked
  size : c.scratch.next.marks.size = p.size
  empty : c.scratch.next.threads = #[]
  matched : ∀ m ∈ c.matched?, m.start ≤ c.pos

/-- What a search on its way has to find. -/
def Config.prospect (p : Program) (input : Input) (c : Config) : Option Slots :=
  Lockstep.prospect p input c.matched? c.pos c.scratch.threads.threads.toList c.pos

variable {c : Config}

/-- Where a search goes on, there is as much to be found as before. -/
theorem Config.IsFit.resume (hs : p.Summarized) (h : c.IsFit p input)
    (hresume : resume? p input c.scratch.threads c.matched? c.pos = some pos) :
    { c with pos }.IsFit p input ∧ { c with pos }.prospect p input = c.prospect p input := by
  obtain ⟨hpos, hset, hprospect⟩ :=
    prospect_of_resume?_eq_some hs h.start_le h.le_size h.threads hresume
  have hle := le_of_resume? hresume
  exact ⟨⟨Nat.le_trans h.start_le hle, hpos, hset, h.marked, h.size, h.empty,
    fun m hm => Nat.le_trans (h.matched m hm) hle⟩, hprospect⟩

/-- After a turn there is as much to be found as before. -/
theorem Config.IsFit.turn (hp : p.Regular) (h : c.IsFit p input) :
    (Lockstep.turn p input c).threads.IsFit p input.haystack c.pos ∧
      (Lockstep.turn p input c).round.next.IsFit p input.haystack (c.pos + 1) ∧
      (∀ m ∈ (Lockstep.turn p input c).round.matched?, m.start ≤ c.pos) ∧
      (Lockstep.turn p input c).after.prospect p input = c.prospect p input := by
  obtain ⟨hset, hprospect⟩ := prospect_start hp c.matched? h.start_le h.le_size h.threads
  have hnext : c.scratch.next.IsFit p input.haystack (c.pos + 1) :=
    ThreadSet.isFit_of_isEmpty h.marked h.size h.empty
  have hlater : ∀ z ∈ matchesFrom p input (c.pos + 1), c.pos < z.start :=
    fun z hz => lt_start_of_mem_matchesFrom hp hz
  have hadvanced : IsAdvanced p input c.pos (matchesFrom p input (c.pos + 1))
      (Lockstep.turn p input c).threads.threads.toList
      ⟨c.matched?, c.scratch.next, (start p input c.matched? c.pos c.scratch).steps⟩
      (Lockstep.turn p input c).round := by
    rw [round_turn]
    exact isAdvanced_advance hp h.start_le hlater
      ⟨hset.ordered, hnext, by simp [h.empty], h.matched⟩
  refine ⟨hset, hadvanced.next, hadvanced.matched, hadvanced.outcome_eq.trans ?_⟩
  rw [Config.prospect, ← hprospect, Lockstep.prospect, h.empty]
  rfl

/-- The next turn comes at a position of the haystack, and leaves as much to be found as before. -/
theorem Config.IsFit.of_turn? (hp : p.Regular) (hs : p.Summarized) (h : c.IsFit p input) {t : Turn}
    (ht : turn? p input c = some t) :
    input.start ≤ t.pos ∧ t.threads.IsFit p input.haystack t.pos ∧
      t.round.next.IsFit p input.haystack (t.pos + 1) ∧
      (∀ m ∈ t.round.matched?, m.start ≤ t.pos) ∧
      t.after.prospect p input = c.prospect p input := by
  obtain ⟨i, hresume, rfl⟩ := turn?_eq_some_iff.mp ht
  obtain ⟨hfit, hprospect⟩ := h.resume hs hresume
  obtain ⟨hset, hnext, hmatched, hturn⟩ := hfit.turn hp
  exact ⟨hfit.start_le, hset, hnext, hmatched, hturn.trans hprospect⟩

/-- At the end there is no byte to go on with. -/
theorem next_of_turn? {t : Turn} (ht : turn? p input c = some t)
    (hsize : input.haystack.size ≤ t.pos) : t.round.next = c.scratch.next := by
  obtain ⟨i, -, rfl⟩ := turn?_eq_some_iff.mp ht
  have hsize : input.haystack.size ≤ i := hsize
  rw [round_turn, next_advance_of_size_le hsize]

/-- Without threads for the position behind the end, there is nothing more to be found. -/
theorem prospect_after_of_size_le {t : Turn} (hempty : t.round.next.threads = #[])
    (hsize : input.haystack.size ≤ t.pos) : t.after.prospect p input = t.round.matched? := by
  have hnone : matchesFrom p input (t.pos + 1) = [] := by
    rw [matchesFrom, Search.startsFrom_of_lt (by omega)]
    rfl
  rw [Config.prospect, Turn.after]
  dsimp only
  rw [hempty, prospect, hnone, yields_nil, later, ite_self, List.append_nil, outcome_nil]

/-- With every step there is as much to be found as before, until it is found. -/
theorem Config.IsFit.step (hp : p.Regular) (hs : p.Summarized) (h : c.IsFit p input) :
    (Lockstep.step p input c).Preserves
      (fun c' => c'.IsFit p input ∧ c'.prospect p input = c.prospect p input)
      (·.1 = c.prospect p input) := by
  fun_cases Lockstep.step p input c with
  | case1 hnone =>
    exact (prospect_of_resume?_eq_none hs h.start_le (turn?_eq_none_iff.mp hnone)).symm
  | case2 t ht hlt =>
    obtain ⟨hstart, hset, hnext, hmatched, hprospect⟩ := h.of_turn? hp hs ht
    refine ⟨⟨Nat.le_succ_of_le hstart, hlt, hnext, hset.marked.clear,
      (ThreadSet.size_clear _).trans hset.size, rfl, ?_⟩, hprospect⟩
    intro m hm
    exact Nat.le_succ_of_le (hmatched m hm)
  | case3 t ht hge =>
    have hsize := Nat.le_of_not_lt hge
    obtain ⟨-, -, -, -, hprospect⟩ := h.of_turn? hp hs ht
    have hempty : t.round.next.threads = #[] := next_of_turn? ht hsize ▸ h.empty
    exact (prospect_after_of_size_le hempty hsize).symm.trans hprospect

/-! ## What is left behind -/

/-- The marks of both sets of threads are in order. -/
structure Scratch.IsMarked (s : Scratch) : Prop where
  threads : s.threads.IsMarked
  next : s.next.IsMarked

theorem isMarked_advance {ts : List Thread} {r : Round} (h : r.next.IsMarked) :
    (advance p input pos ts r).next.IsMarked := by
  fun_induction advance p input pos ts r with
  | case1 | case3 => exact h
  | case2 _ _ _ _ _ _ _ ih => exact ih h
  | case4 _ _ _ _ _ _ ih => exact ih h
  | case5 _ _ _ _ _ _ _ _ _ _ ih => exact ih h
  | case6 _ _ _ _ _ _ _ _ _ _ _ ih => exact ih (isMarked_close _ _ _ _ _ h).1
  | case7 _ _ _ _ _ _ _ _ ih => exact ih h
  | case8 _ _ _ _ _ ih => exact ih h

theorem Scratch.IsMarked.start {s : Scratch} (h : s.IsMarked) (matched? : Option Slots) :
    (Lockstep.start p input matched? pos s).IsMarked := by
  unfold Lockstep.start
  split
  · exact ⟨(isMarked_close _ _ _ _ _ h.threads).1, h.next⟩
  · exact h

theorem isMarked_of_turn? {c : Config} {t : Turn} (h : c.scratch.IsMarked)
    (ht : turn? p input c = some t) : t.threads.IsMarked ∧ t.round.next.IsMarked := by
  obtain ⟨i, -, rfl⟩ := turn?_eq_some_iff.mp ht
  have hstart : (start p input c.matched? i c.scratch).IsMarked := h.start c.matched?
  exact ⟨hstart.threads, isMarked_advance hstart.next⟩

/-- A step leaves the marks in order. -/
theorem isMarked_step (p : Program) (input : Input) {c : Config} (h : c.scratch.IsMarked) :
    (step p input c).Preserves (·.scratch.IsMarked) (·.2.IsMarked) := by
  fun_cases step p input c with
  | case1 => exact h
  | case2 t ht _ =>
    obtain ⟨hthreads, hnext⟩ := isMarked_of_turn? h ht
    exact ⟨hnext, hthreads.clear⟩
  | case3 t ht _ =>
    obtain ⟨hthreads, hnext⟩ := isMarked_of_turn? h ht
    exact ⟨hthreads, hnext⟩

theorem Scratch.IsMarked.begin {s : Scratch} (h : s.IsMarked) (p : Program) (input : Input) :
    (Lockstep.begin p input s).scratch.IsMarked :=
  ⟨h.threads.prepare p.size, h.next.prepare p.size⟩

/-- Lists that are in order are as good as new ones. -/
theorem Scratch.IsMarked.begin_eq {s : Scratch} (h : s.IsMarked) (p : Program) (input : Input) :
    Lockstep.begin p input s = Lockstep.begin p input {} := by
  have hnew : ThreadSet.IsMarked {} := ThreadSet.isMarked_blank 0
  simp only [Lockstep.begin, h.threads.prepare_eq, h.next.prepare_eq, hnew.prepare_eq]

theorem isFit_begin {s : Scratch} (h : s.IsMarked) (hstart : input.start ≤ input.haystack.size) :
    (begin p input s).IsFit p input where
  start_le := Nat.le_refl _
  le_size := hstart
  threads := ThreadSet.isFit_of_isEmpty (h.threads.prepare p.size) (ThreadSet.size_prepare _ _)
    (ThreadSet.threads_prepare _ _)
  marked := h.next.prepare p.size
  size := ThreadSet.size_prepare _ _
  empty := ThreadSet.threads_prepare _ _
  matched := nofun

/-- At first, all is still to be found. -/
theorem prospect_begin (hp : p.Regular) (s : Scratch) :
    (begin p input s).prospect p input = best? p input input.start := by
  rw [Config.prospect, begin]
  dsimp only
  rw [prospect, ThreadSet.threads_prepare, later_none, matchesFrom,
    ← Search.outcome_flatMap_matchesAt hp]
  rfl

end Lockstep

namespace Search

/-- A search leaves its threads in order, whatever program it is for. -/
theorem isMarked_lockstep {s : Lockstep.Scratch} (h : s.IsMarked) (p : Program) (input : Input) :
    (lockstep p input s).2.IsMarked := by
  rw [lockstep]
  split
  · exact h
  · have hrun : ((Lockstep.loop p input).run (Lockstep.begin p input s)).2.IsMarked :=
      (Lockstep.loop p input).run_of_preserves (I := (·.scratch.IsMarked)) (Q := (·.2.IsMarked))
        (fun _ hc => Lockstep.isMarked_step p input hc) (h.begin p input)
    exact ⟨hrun.threads.clear, hrun.next.clear⟩

/-- A search in lockstep finds the match to be found. -/
theorem lockstep_eq {p : Program} {input : Input} {s : Lockstep.Scratch} (hp : p.Regular)
    (hs : p.Summarized) (hmarked : s.IsMarked) :
    (lockstep p input s).1 = (best? p input input.start).map (Captures.ofSlots p.slotCount) := by
  rw [lockstep]
  split
  · next hlt =>
    rw [best?, startsFrom_of_lt hlt]
    rfl
  · next hle =>
    have hrun : ((Lockstep.loop p input).run (Lockstep.begin p input s)).1 =
        best? p input input.start := by
      refine (Lockstep.loop p input).run_of_preserves
        (I := fun c => c.IsFit p input ∧ c.prospect p input = best? p input input.start)
        (Q := fun r => r.1 = best? p input input.start) (fun c hc => ?_)
        ⟨Lockstep.isFit_begin hmarked (Nat.le_of_not_lt hle), Lockstep.prospect_begin hp s⟩
      rw [← hc.2]
      exact hc.1.step hp hs
    exact congrArg (Option.map (Captures.ofSlots p.slotCount)) hrun

end Search
end LinearRegex
