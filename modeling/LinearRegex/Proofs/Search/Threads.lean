import LinearRegex.Proofs.Search.Reference
import LinearRegex.Proofs.Search.Tasks

/-!
# Threads

The marks of a set of threads are those of its instructions, whatever has been done with the set
(`ThreadSet.IsMarked`).  Following a path at one position adds threads in the order in which the
path is followed in depth (`threads_close`).  The threads that are left out, because there is one at
their instruction already, would only lead to matches that others cover (`outcome_close`).
-/

namespace LinearRegex
namespace Lockstep

open Search (outcome Covers CoversAll)

/-! ## Marks -/

namespace ThreadSet

/-- The marked numbers are the indexes of the threads. -/
def IsMarked (s : ThreadSet) : Prop :=
  ∀ i, s.marks.isFree i ↔ i < s.marks.size ∧ ∀ t ∈ s.threads, t.index ≠ i

theorem isMarked_blank (n : Nat) : IsMarked ⟨#[], Marks.blank n⟩ := by
  intro i
  simp [Marks.isFree_blank]

theorem IsMarked.mem_freeSet {s : ThreadSet} (h : s.IsMarked) {i : Nat} :
    i ∈ s.marks.freeSet ↔ i < s.marks.size ∧ ∀ t ∈ s.threads.toList, t.index ≠ i := by
  rw [Marks.mem_freeSet, h]
  simp only [Array.mem_toList_iff]

theorem IsMarked.push {s : ThreadSet} (h : s.IsMarked) (t : Thread) : (s.push t).IsMarked := by
  intro i
  rw [ThreadSet.push, Marks.isFree_mark, h, Marks.size_mark]
  constructor
  · rintro ⟨hne, hlt, hall⟩
    refine ⟨hlt, fun t' ht' => ?_⟩
    rcases Array.mem_push.mp ht' with ht' | rfl
    · exact hall t' ht'
    · exact hne.symm
  · rintro ⟨hlt, hall⟩
    exact ⟨(hall t Array.mem_push_self).symm, hlt,
      fun t' ht' => hall t' (Array.mem_push_of_mem t ht')⟩

theorem size_foldl_unmark (ts : List Thread) (m : Marks) :
    (ts.foldl (fun m t => m.unmark t.index) m).size = m.size := by
  induction ts generalizing m with
  | nil => rfl
  | cons t ts ih => rw [List.foldl_cons, ih, Marks.size_unmark]

theorem isFree_foldl_unmark {ts : List Thread} {m : Marks} {i : Nat} :
    (ts.foldl (fun m t => m.unmark t.index) m).isFree i ↔
      (i < m.size ∧ ∃ t ∈ ts, t.index = i) ∨ m.isFree i := by
  induction ts generalizing m with
  | nil => simp
  | cons t ts ih =>
    rw [List.foldl_cons, ih, Marks.size_unmark, Marks.isFree_unmark, List.exists_mem_cons_iff]
    constructor
    · rintro (⟨hlt, hex⟩ | ⟨hlt, rfl⟩ | hfree)
      · exact Or.inl ⟨hlt, Or.inr hex⟩
      · exact Or.inl ⟨hlt, Or.inl rfl⟩
      · exact Or.inr hfree
    · rintro (⟨hlt, rfl | hex⟩ | hfree)
      · exact Or.inr (Or.inl ⟨hlt, rfl⟩)
      · exact Or.inl ⟨hlt, hex⟩
      · exact Or.inr (Or.inr hfree)

theorem size_clear (s : ThreadSet) : s.clear.marks.size = s.marks.size := by
  rw [clear, ← Array.foldl_toList, size_foldl_unmark]

/-- Nothing is marked in a set that has been cleared. -/
theorem IsMarked.clear {s : ThreadSet} (h : s.IsMarked) : s.clear.IsMarked := by
  intro i
  rw [size_clear, ThreadSet.clear, ← Array.foldl_toList, isFree_foldl_unmark, h]
  constructor
  · rintro (⟨hlt, -⟩ | ⟨hlt, -⟩) <;> exact ⟨hlt, by simp⟩
  · rintro ⟨hlt, -⟩
    by_cases hex : ∃ t ∈ s.threads.toList, t.index = i
    · exact Or.inl ⟨hlt, hex⟩
    · exact Or.inr ⟨hlt, fun t ht heq => hex ⟨t, Array.mem_toList_iff.mpr ht, heq⟩⟩

/-- Clearing a set leaves nothing of it but its size. -/
theorem IsMarked.marks_clear {s : ThreadSet} (h : s.IsMarked) :
    s.clear.marks = Marks.blank s.marks.size := by
  have hfree : ∀ i < s.clear.marks.size, s.clear.marks.isFree i :=
    fun i hi => (h.clear i).mpr ⟨hi, by simp [ThreadSet.clear]⟩
  rw [Marks.eq_blank hfree, size_clear]

/-- A set that is prepared for a program is as if it were new, whatever it held before. -/
theorem IsMarked.prepare_eq {s : ThreadSet} (h : s.IsMarked) (n : Nat) :
    s.prepare n = ⟨#[], Marks.blank n⟩ := by
  unfold ThreadSet.prepare
  split
  · next hsize => rw [← hsize, ← h.marks_clear, ThreadSet.clear]
  · rfl

theorem IsMarked.prepare {s : ThreadSet} (h : s.IsMarked) (n : Nat) : (s.prepare n).IsMarked := by
  unfold ThreadSet.prepare
  split
  · exact h.clear
  · exact isMarked_blank n

theorem size_prepare (s : ThreadSet) (n : Nat) : (s.prepare n).marks.size = n := by
  unfold prepare
  split
  · next hsize => rw [size_clear, hsize]
  · exact Marks.size_blank n

@[simp] theorem threads_prepare (s : ThreadSet) (n : Nat) : (s.prepare n).threads = #[] := by
  unfold prepare
  split <;> rfl

end ThreadSet

/-! ## Following paths at one position -/

/-- The thread of a visit. -/
def threadOf (a : Nat × Slots) : Thread :=
  ⟨a.1, a.2⟩

theorem isMarked_close (p : Program) (h : ByteArray) (pos : Nat) (tasks : List (Task Nat))
    (c : Closure) (hmarked : c.set.IsMarked) :
    (close p h pos tasks c).set.IsMarked ∧
      (close p h pos tasks c).set.marks.size = c.set.marks.size := by
  fun_induction close p h pos tasks c with
  | case1 c => exact ⟨hmarked, rfl⟩
  | case2 _ _ _ _ ih => exact ih hmarked
  | case3 _ _ _ _ _ ih => exact ih hmarked
  | case4 c i rest hfree instr hi ih =>
    obtain ⟨hset, hsize⟩ := ih (hmarked.push _)
    exact ⟨hset, hsize.trans (Marks.size_mark _ _)⟩
  | case5 _ _ _ _ ih => exact ih hmarked

/-- The threads that are added are those that a search in depth visits at the position. -/
theorem threads_close (p : Program) (h : ByteArray) (pos : Nat) (tasks : List (Task Nat))
    (c : Closure) (hsize : c.set.marks.size = p.size) :
    (close p h pos tasks c).set.threads.toList =
      c.set.threads.toList ++
        (p.layer h pos).visits c.set.marks.freeSet ((Task.resolve c.slots tasks).map threadOf) := by
  fun_induction close p h pos tasks c with
  | case1 c => simp [Task.resolve]
  | case2 c slot old rest ih => exact ih hsize
  | case3 c i rest hfree hi ih =>
    obtain ⟨instr, hinstr⟩ := Program.exists_instr (hsize ▸ Marks.lt_size_of_isFree hfree)
    rw [hi] at hinstr
    cases hinstr
  | case4 c i rest hfree instr hi ih =>
    have hmem : (p.layer h pos).key (threadOf (i, c.slots)) ∈ c.set.marks.freeSet :=
      Marks.mem_freeSet.mpr hfree
    have hnext : (p.layer h pos).next (threadOf (i, c.slots)) =
        ((instr.targetsAt h pos).map (·, instr.store c.slots pos)).map threadOf := by
      rw [Program.next_layer, threadOf, Program.targetsAt_of_instr hi, Program.stored_of_instr hi,
        List.map_map]
      rfl
    rw [ih ((Marks.size_mark _ _).trans hsize), Task.resolve_after, Task.resolve, List.map_cons,
      Exploration.visits_cons_of_mem _ hmem, hnext, List.map_append, ThreadSet.push,
      Array.toList_push, Marks.freeSet_mark, List.append_assoc]
    rfl
  | case5 c i rest hfree ih =>
    have hmem : (p.layer h pos).key (threadOf (i, c.slots)) ∉ c.set.marks.freeSet :=
      mt Marks.mem_freeSet.mp hfree
    rw [Task.resolve, List.map_cons, Exploration.visits_cons_of_notMem _ hmem]
    exact ih hsize

/-! ## What threads lead to -/

variable {p : Program} {input : Input} {pos : Nat}

/-- Where the path of a thread at `pos` began. -/
def Thread.beginning (pos : Nat) (t : Thread) : Nat :=
  if t.index = 0 then pos else t.slots.start

/-- The slots of a thread at `pos` say where its path began. -/
def Thread.IsBegun (p : Program) (pos : Nat) (t : Thread) : Prop :=
  LinearRegex.IsBegun p (t.beginning pos) (t.index, pos) t.slots

theorem Thread.beginning_eq {start : Nat} {t : Thread}
    (h : LinearRegex.IsBegun p start (t.index, pos) t.slots) : t.beginning pos = start := by
  unfold beginning
  split
  · next hzero => exact h.pos_eq hzero
  · next hne => exact h.start_eq hne

theorem Thread.isBegun_of {start : Nat} {t : Thread}
    (h : LinearRegex.IsBegun p start (t.index, pos) t.slots) : t.IsBegun p pos := by
  rw [IsBegun, beginning_eq h]
  exact h

/-- The threads at `pos` are listed by where they began. -/
structure IsOrdered (p : Program) (pos : Nat) (ts : List Thread) : Prop where
  begun : ∀ t ∈ ts, t.IsBegun p pos
  sorted : ts.Pairwise fun a b => a.beginning pos ≤ b.beginning pos

/-- The matches that threads at `pos` lead to without going on at their position. -/
def yields (p : Program) (input : Input) (pos : Nat) (ts : List Thread) : List Slots :=
  ts.flatMap fun t => (p.yield input pos t).map (·.2)

@[simp] theorem yields_nil : yields p input pos [] = [] :=
  rfl

theorem yields_cons (t : Thread) (ts : List Thread) :
    yields p input pos (t :: ts) = (p.yield input pos t).map (·.2) ++ yields p input pos ts :=
  rfl

/-- What a thread leads to are matches of its path. -/
theorem isBegun_of_mem_yield (hp : p.Regular) {t : Thread} (ht : t.IsBegun p pos)
    {a : Node × Slots} (ha : a ∈ p.yield input pos t) :
    IsBegun p (t.beginning pos) a.1 a.2 ∧ p.instrs[a.1.1]? = some .accept := by
  rcases List.mem_append.mp ha with ha | ha
  · split at ha
    · next haccepts =>
      obtain rfl := List.mem_singleton.mp ha
      exact ⟨ht, Program.instr_of_accepts haccepts⟩
    · cases ha
  · split at ha
    · next next hnext =>
      have hbegun := ht.next hp (Program.mem_successors_of_nextAt? hnext)
      rw [Program.stored_of_nextAt? hnext] at hbegun
      exact ⟨hbegun.of_mem_results hp ha,
        Program.instr_of_accepts (Program.accepts_of_mem_results ha)⟩
    · cases ha

theorem start_of_mem_yield (hp : p.Regular) {t : Thread} (ht : t.IsBegun p pos) {m : Slots}
    (hm : m ∈ (p.yield input pos t).map (·.2)) : m.start = t.beginning pos := by
  obtain ⟨a, ha, rfl⟩ := List.mem_map.mp hm
  obtain ⟨hbegun, hat⟩ := isBegun_of_mem_yield hp ht ha
  exact (hbegun.start_stop_eq hp hat).1

theorem map_fst_yield {a b : Thread} (heq : a.index = b.index) :
    (p.yield input pos a).map (·.1) = (p.yield input pos b).map (·.1) := by
  have hhere : ∀ t : Thread,
      (if p.accepts input (t.index, pos) then [((t.index, pos), t.slots)] else []).map (·.1) =
        if p.accepts input (t.index, pos) then [(t.index, pos)] else [] := by
    intro t
    split <;> rfl
  rw [Program.yield, Program.yield, List.map_append, List.map_append, hhere, hhere, heq]
  congr 1
  split
  · exact Program.map_fst_results _ _ _
  · rfl

/-- Of two threads at one instruction, the one that began first covers the other. -/
theorem coversAll_yield (hp : p.Regular) (input : Input) (longest : Bool) {a b : Thread}
    (ha : a.IsBegun p pos) (hb : b.IsBegun p pos) (heq : a.index = b.index)
    (hle : a.beginning pos ≤ b.beginning pos) :
    CoversAll longest ((p.yield input pos a).map (·.2)) ((p.yield input pos b).map (·.2)) := by
  intro y hy
  obtain ⟨y', hy', rfl⟩ := List.mem_map.mp hy
  have hend : y'.1 ∈ (p.yield input pos a).map (·.1) := by
    rw [map_fst_yield heq]
    exact List.mem_map_of_mem hy'
  obtain ⟨x, hx, hends⟩ := List.mem_map.mp hend
  refine ⟨x.2, List.mem_map_of_mem hx, ?_⟩
  obtain ⟨hxbegun, hat⟩ := isBegun_of_mem_yield hp ha hx
  obtain ⟨hybegun, -⟩ := isBegun_of_mem_yield hp hb hy'
  exact Search.covers_of_isBegun hp hxbegun (hends ▸ hybegun) hle hat

/-- The threads that follow a thread at its position began where it did. -/
theorem isBegun_of_mem_trails (hp : p.Regular) {h : ByteArray} {free : Finset Nat} {t u : Thread}
    (ht : t.IsBegun p pos) (hu : u ∈ (p.layer h pos).trails free t) :
    u.IsBegun p pos ∧ u.beginning pos = t.beginning pos := by
  have hnext : ∀ b : Thread, LinearRegex.IsBegun p (t.beginning pos) (b.index, pos) b.slots →
      ∀ c ∈ (p.layer h pos).next b,
        LinearRegex.IsBegun p (t.beginning pos) (c.index, pos) c.slots := by
    intro b hb c hc
    rw [Program.next_layer, List.mem_map] at hc
    obtain ⟨i, hi, rfl⟩ := hc
    exact hb.next hp (Program.mem_successors_of_targetsAt hi)
  have hall := (p.layer h pos).forall_mem_trails
    (P := fun u => LinearRegex.IsBegun p (t.beginning pos) (u.index, pos) u.slots) ht hnext u hu
  exact ⟨Thread.isBegun_of hall, Thread.beginning_eq hall⟩

/-! ## Adding the threads of a path -/

namespace ThreadSet

/-- The set holds what was reached so far at `pos`: its threads are listed by where they began, and
nothing follows them at `pos` that is not in the set. -/
structure IsFit (p : Program) (h : ByteArray) (pos : Nat) (s : ThreadSet) : Prop where
  marked : s.IsMarked
  size : s.marks.size = p.size
  ordered : IsOrdered p pos s.threads.toList
  settled : (p.layer h pos).Settled (Finset.range p.size) s.marks.freeSet

/-- A set without threads is fit. -/
theorem isFit_of_isEmpty {h : ByteArray} {s : ThreadSet} (hmarked : s.IsMarked)
    (hsize : s.marks.size = p.size) (hempty : s.threads = #[]) : s.IsFit p h pos := by
  refine ⟨hmarked, hsize, ?_, ?_⟩
  · rw [hempty]
    exact ⟨by simp, List.Pairwise.nil⟩
  · intro i hi hnot
    refine absurd (Marks.mem_freeSet.mpr ((hmarked i).mpr ⟨?_, ?_⟩)) hnot
    · rw [hsize]
      exact Finset.mem_range.mp hi
    · simp [hempty]

end ThreadSet

variable {h : ByteArray} {c : Closure} {i : Nat}

theorem threads_close_visit (hsize : c.set.marks.size = p.size) :
    (close p h pos [.visit i] c).set.threads.toList =
      c.set.threads.toList ++ (p.layer h pos).visits c.set.marks.freeSet [⟨i, c.slots⟩] :=
  threads_close p h pos [.visit i] c hsize

/-- The threads of a path are new instructions of the set. -/
theorem visits_eq (hset : c.set.IsFit p h pos) :
    (p.layer h pos).visits c.set.marks.freeSet [⟨i, c.slots⟩] =
      (p.layer h pos).firsts c.set.marks.freeSet
        ((p.layer h pos).trails (Finset.range p.size) ⟨i, c.slots⟩) := by
  rw [Exploration.visits_eq_firsts _ (fun j hj => ?_) hset.settled, List.flatMap_singleton]
  rw [← hset.size]
  exact Finset.mem_range.mpr (hset.marked.mem_freeSet.mp hj).1

theorem freeSet_close_visit (hset : c.set.IsFit p h pos) :
    (close p h pos [.visit i] c).set.marks.freeSet =
      (p.layer h pos).unvisited c.set.marks.freeSet [⟨i, c.slots⟩] := by
  obtain ⟨hmarked, hsize⟩ := isMarked_close p h pos [.visit i] c hset.marked
  ext j
  rw [hmarked.mem_freeSet, hsize, threads_close_visit hset.size, List.forall_mem_append,
    ← and_assoc, ← hset.marked.mem_freeSet, Exploration.unvisited, Finset.mem_sdiff,
    Exploration.mem_keys]
  refine and_congr_right fun _ => ?_
  simp only [ne_eq, not_exists, not_and]
  rfl

theorem isBegun_of_mem_visits (hp : p.Regular) (hset : c.set.IsFit p h pos)
    (ht : Thread.IsBegun p pos ⟨i, c.slots⟩) {u : Thread}
    (hu : u ∈ (p.layer h pos).visits c.set.marks.freeSet [⟨i, c.slots⟩]) :
    u.IsBegun p pos ∧ u.beginning pos = Thread.beginning pos ⟨i, c.slots⟩ := by
  rw [visits_eq hset] at hu
  exact isBegun_of_mem_trails hp ht ((p.layer h pos).mem_of_mem_firsts hu)

/-- The threads of a path began where the path did. -/
theorem beginning_of_mem_close (hp : p.Regular) (hset : c.set.IsFit p h pos)
    (ht : Thread.IsBegun p pos ⟨i, c.slots⟩) {u : Thread}
    (hu : u ∈ (close p h pos [.visit i] c).set.threads.toList) :
    u ∈ c.set.threads.toList ∨ u.beginning pos = Thread.beginning pos ⟨i, c.slots⟩ := by
  rw [threads_close_visit hset.size, List.mem_append] at hu
  exact hu.imp_right fun hnew => (isBegun_of_mem_visits hp hset ht hnew).2

/-- Following a path keeps a set fit, if the path began no earlier than those of its threads. -/
theorem isFit_close (hp : p.Regular) (hset : c.set.IsFit p h pos)
    (ht : Thread.IsBegun p pos ⟨i, c.slots⟩)
    (hle : ∀ u ∈ c.set.threads.toList, u.beginning pos ≤ Thread.beginning pos ⟨i, c.slots⟩) :
    (close p h pos [.visit i] c).set.IsFit p h pos := by
  obtain ⟨hmarked, hsize⟩ := isMarked_close p h pos [.visit i] c hset.marked
  have hnew := fun u => isBegun_of_mem_visits (u := u) hp hset ht
  refine ⟨hmarked, hsize.trans hset.size, ⟨?_, ?_⟩, ?_⟩
  · rw [threads_close_visit hset.size, List.forall_mem_append]
    exact ⟨hset.ordered.begun, fun u hu => (hnew u hu).1⟩
  · rw [threads_close_visit hset.size, List.pairwise_append]
    refine ⟨hset.ordered.sorted, ?_, fun u hu v hv => ?_⟩
    · refine List.pairwise_of_forall_mem_list fun u hu v hv => ?_
      rw [(hnew u hu).2, (hnew v hv).2]
    · rw [(hnew v hv).2]
      exact hle u hu
  · rw [freeSet_close_visit hset]
    exact hset.settled.unvisited _ _

/-- Following a path adds what it leads to behind what the threads lead to. -/
theorem outcome_close (hp : p.Regular) (hset : c.set.IsFit p input.haystack pos)
    (ht : Thread.IsBegun p pos ⟨i, c.slots⟩)
    (hle : ∀ u ∈ c.set.threads.toList, u.beginning pos ≤ Thread.beginning pos ⟨i, c.slots⟩)
    (hstart : input.start ≤ pos) (hsize : pos ≤ input.haystack.size) (longest : Bool)
    (matched? : Option Slots) (zs : List Slots) :
    outcome longest matched?
        (yields p input pos (close p input.haystack pos [.visit i] c).set.threads.toList ++ zs) =
      outcome longest matched?
        (yields p input pos c.set.threads.toList ++
          (p.results input (i, pos) c.slots).map (·.2) ++ zs) := by
  have hresults := Program.results_eq_flatMap_yield (p := p) hstart hsize ⟨i, c.slots⟩
  have hfirsts := Search.outcome_firsts longest matched? (p.layer input.haystack pos)
    (fun t => (p.yield input pos t).map (·.2)) c.set.marks.freeSet c.set.threads.toList
    ((p.layer input.haystack pos).trails (Finset.range p.size) ⟨i, c.slots⟩) ?_ ?_ zs
  · rw [threads_close_visit hset.size, visits_eq hset]
    refine hfirsts.trans ?_
    rw [hresults, List.flatMap_append, List.map_flatMap]
    rfl
  · intro b hb hnot
    obtain ⟨hbegun, hbeginning⟩ := isBegun_of_mem_trails hp ht hb
    have hlt := Finset.mem_range.mp ((p.layer input.haystack pos).mem_of_mem_trails hb)
    have hex : ∃ u ∈ c.set.threads.toList, u.index = b.index := by
      by_contra hnone
      refine hnot (hset.marked.mem_freeSet.mpr ⟨hset.size ▸ hlt, fun u hu heq => ?_⟩)
      exact hnone ⟨u, hu, heq⟩
    obtain ⟨u, hu, heq⟩ := hex
    have hcovers := coversAll_yield hp input longest (hset.ordered.begun u hu) hbegun heq
      (hbeginning ▸ hle u hu)
    exact hcovers.mono fun x hx => List.mem_flatMap.mpr ⟨u, hu, hx⟩
  · intro a ha b hb heq
    obtain ⟨habegun, habeginning⟩ := isBegun_of_mem_trails hp ht ha
    obtain ⟨hbbegun, hbbeginning⟩ := isBegun_of_mem_trails hp ht hb
    exact coversAll_yield hp input longest habegun hbbegun heq (by rw [habeginning, hbbeginning])

end Lockstep
end LinearRegex
