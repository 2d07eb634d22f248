import LinearRegex.Proofs.Expr.WellFormed
import LinearRegex.Proofs.Program.Assembly
import LinearRegex.Proofs.Search.Runs
import LinearRegex.Proofs.Storage.Lockstep
import LinearRegex.Proofs.Traversal.Routes

/-!
# Following a path at its position

A path that comes to an instruction is followed at its position as far as no byte is consumed.  The
set that it is followed into holds, before and after, all that its threads lead to without consuming
a byte (`ThreadSet.IsClosed`), so that a path which comes to an old thread has nothing left to do.
The new threads are those at the instructions that can be reached otherwise, each with what is
stored along the first route to it (`ThreadSet.IsExtended`).  What has been stored on the way is
undone, and the next path finds the slots that this one has found.
-/

namespace LinearRegex
namespace Program

variable {p : Program} {h : ByteArray} {pos i : Nat} {slots : Slots}

/-! ## The instructions at one position -/

theorem nodup_targetsAt (hp : p.Regular) (h : ByteArray) (pos i : Nat) :
    (p.targetsAt h pos i).Nodup := by
  cases hi : p.instrs[i]? with
  | none =>
    rw [targetsAt, hi]
    exact List.nodup_nil
  | some instr =>
    rw [targetsAt_of_instr hi]
    cases instr with
    | split first second =>
      exact List.nodup_cons.mpr
        ⟨mt List.mem_singleton.mp (hp.split hi), List.nodup_singleton second⟩
    | look l next =>
      rw [Instr.targetsAt]
      split
      · exact List.nodup_singleton next
      · exact List.nodup_nil
    | save slot next => exact List.nodup_singleton next
    | nop next => exact List.nodup_singleton next
    | _ => exact List.nodup_nil

theorem lt_size_of_mem_targetsAt (hp : p.Regular) {t : Nat} (ht : t ∈ p.targetsAt h pos i) :
    t < p.size := by
  obtain ⟨instr, hi, hexit, -⟩ := exists_exit_of_mem_successors (mem_successors_of_targetsAt ht)
  exact (hp.exits hi t hexit).2

/-! ## What is stored along a path -/

/-- The slots `row` are those that a path at `pos` leaves which begins with `slots`: every slot that
an instruction of the path saves to holds the position, and the others are as they were. -/
structure IsStoredAlong (p : Program) (pos : Nat) (path : List Nat) (slots row : Slots) :
    Prop where
  size : row.size = slots.size
  saved : ∀ i ∈ path, ∀ slot next, p.instrs[i]? = some (.save slot next) → slot < slots.size →
    row.offset? slot = some pos
  kept : ∀ slot, (∀ i ∈ path, ∀ next, p.instrs[i]? ≠ some (.save slot next)) →
    row.offset? slot = slots.offset? slot

theorem offset?_stored_of_not_save {slot : Nat}
    (hnot : ∀ next, p.instrs[i]? ≠ some (.save slot next)) (pos : Nat) (slots : Slots) :
    (p.stored (i, pos) slots).offset? slot = slots.offset? slot := by
  cases hi : p.instrs[i]? with
  | none => rw [stored, hi]
  | some instr =>
    rw [stored_of_instr hi]
    cases instr with
    | save slot' next =>
      have hne : slot' ≠ slot := fun heq => hnot next (heq ▸ hi)
      exact Slots.offset?_store_of_ne hne (some pos)
    | _ => rfl

theorem isStoredAlong_nil (p : Program) (pos : Nat) (slots : Slots) :
    p.IsStoredAlong pos [] slots slots :=
  ⟨rfl, fun _ hi => absurd hi List.not_mem_nil, fun _ _ => rfl⟩

theorem IsStoredAlong.concat {path : List Nat} {row : Slots}
    (hrow : p.IsStoredAlong pos path slots row) (k : Nat) :
    p.IsStoredAlong pos (path ++ [k]) slots (p.stored (k, pos) row) where
  size := (p.size_stored (k, pos) row).trans hrow.size
  saved := by
    intro i hi slot next hinstr hslot
    by_cases hsaves : ∃ next, p.instrs[k]? = some (.save slot next)
    · obtain ⟨next', hk⟩ := hsaves
      rw [stored_of_instr hk]
      exact Slots.offset?_store_self (hrow.size ▸ hslot) (some pos)
    · rw [offset?_stored_of_not_save fun next' hk => hsaves ⟨next', hk⟩]
      rcases List.mem_append.mp hi with hi | hi
      · exact hrow.saved i hi slot next hinstr hslot
      · obtain rfl := List.mem_singleton.mp hi
        exact absurd ⟨next, hinstr⟩ hsaves
  kept := by
    intro slot hnot
    obtain ⟨hpath, hk⟩ := List.forall_mem_append.mp hnot
    rw [offset?_stored_of_not_save (hk k (List.mem_singleton_self k))]
    exact hrow.kept slot hpath

theorem isStoredAlong_written (p : Program) (pos : Nat) (path : List Nat) (slots : Slots) :
    p.IsStoredAlong pos path slots (p.written slots (path.map (·, pos))) := by
  induction path using List.reverseRecOn with
  | nil => exact p.isStoredAlong_nil pos slots
  | append_singleton path k ih =>
    rw [written, List.map_append, List.foldl_append]
    exact ih.concat k

/-- The thread at the end of a route has stored what is written along it. -/
theorem stored_of_mem_routes {free : Finset Nat} {t u : Lockstep.Thread} {path : List Nat}
    (hpath : (u, path) ∈ (p.layer h pos).routes free t) :
    p.stored (u.index, pos) u.slots = p.written t.slots (path.map (·, pos)) := by
  induction free, t using Exploration.routes.induct (p.layer h pos) generalizing path with
  | case1 free t hmem ih =>
    rw [Exploration.routes_of_mem _ hmem] at hpath
    rcases List.mem_cons.mp hpath with heq | hpath
    · obtain ⟨rfl, rfl⟩ := Prod.mk.inj heq
      rfl
    · obtain ⟨c, hc, hpath⟩ := List.mem_flatMap.mp hpath
      obtain ⟨⟨u', path'⟩, hpath', heq⟩ := List.mem_map.mp hpath
      obtain ⟨rfl, rfl⟩ := Prod.mk.inj heq
      rw [next_layer] at hc
      obtain ⟨j, -, rfl⟩ := List.mem_map.mp hc
      have hrest := ih _ hpath'
      exact hrest
  | case2 free t hmem =>
    rw [Exploration.routes_of_notMem _ hmem] at hpath
    cases hpath

theorem stored_of_keepsSlots {instr : Instr} (hi : p.instrs[i]? = some instr)
    (hkeeps : instr.keepsSlots) (pos : Nat) (slots : Slots) : p.stored (i, pos) slots = slots := by
  rw [stored_of_instr hi]
  cases instr with
  | save slot next => cases hkeeps
  | _ => rfl

end Program

namespace Storage

variable {p : Program} {h : ByteArray} {stride pos i j : Nat} {slots : Slots} {s : ThreadSet}

/-! ## What stays as it was -/

/-- The slots that the tasks leave are those that they have found, with all undone that was to be
undone. -/
theorem slots_close (p : Program) (h : ByteArray) (pos : Nat) (w : Walk) (s : ThreadSet) :
    (close p h pos w s).1.slots = Task.restored w.slots w.tasks := by
  fun_induction close p h pos w s with
  | case1 s slots steps => rfl
  | case2 s slot old rest slots steps ih => exact ih
  | case3 s i rest slots steps hfree hi ih => exact ih
  | case4 s i rest slots steps hfree instr hi ih =>
    rw [ih, Task.restored_after]
    rfl
  | case5 s i rest slots steps hfree ih => exact ih

theorem ThreadSet.row_visit_of_ne (hne : i ≠ j) (s : ThreadSet) (instr : Instr) (slots : Slots) :
    (s.visit i instr slots).rows.row j = s.rows.row j := by
  unfold visit
  split
  · exact SlotTable.row_setRow_of_ne hne
  · rfl

/-- Only rows of instructions that had no thread are written. -/
theorem row_close (p : Program) (h : ByteArray) (pos : Nat) (w : Walk)
    (hj : ¬ s.marks.isFree j) : (close p h pos w s).2.rows.row j = s.rows.row j := by
  fun_induction close p h pos w s with
  | case1 s slots steps => rfl
  | case2 s slot old rest slots steps ih => exact ih hj
  | case3 s i rest slots steps hfree hi ih => exact ih hj
  | case4 s i rest slots steps hfree instr hi ih =>
    have hne : i ≠ j := by
      rintro rfl
      exact hj hfree
    have hj' : ¬ (s.visit i instr slots).marks.isFree j := by
      rw [ThreadSet.marks_visit, Marks.isFree_mark]
      exact fun hmark => hj hmark.2
    rw [ih hj', ThreadSet.row_visit_of_ne hne]
  | case5 s i rest slots steps hfree ih => exact ih hj

/-! ## The sets that paths are followed into -/

namespace ThreadSet

/-- The set is made for the program and for threads with `stride` slots: there is a row for every
instruction, and those that are marked are the threads, each of which is listed once. -/
structure IsFor (p : Program) (stride : Nat) (s : ThreadSet) : Prop where
  nodup : s.items.toList.Nodup
  size : s.marks.size = p.size
  marked : ∀ i, s.marks.isFree i ↔ i < p.size ∧ i ∉ s.items
  rows : s.rows.HasRows p.size stride

/-- What follows a thread at `pos` without consuming a byte is a thread as well. -/
def IsClosed (p : Program) (h : ByteArray) (pos : Nat) (s : ThreadSet) : Prop :=
  ∀ i ∈ s.items, ∀ j ∈ p.targetsAt h pos i, j ∈ s.items

theorem isFor_blank (p : Program) (stride : Nat) : (blank p.size stride).IsFor p stride where
  nodup := List.nodup_nil
  size := Marks.size_blank p.size
  marked i := by simp [blank, Marks.isFree_blank]
  rows := SlotTable.hasRows_blank p.size stride

theorem isClosed_blank (p : Program) (h : ByteArray) (pos size stride : Nat) :
    (blank size stride).IsClosed p h pos :=
  fun i hi => absurd hi (Array.not_mem_empty i)

/-- The threads, each with its row. -/
def unpack (s : ThreadSet) : Lockstep.ThreadSet :=
  ⟨s.items.map fun i => ⟨i, s.rows.row i⟩, s.marks⟩

theorem IsFor.mirrors_unpack (hs : s.IsFor p stride) : s.Mirrors p stride s.unpack where
  items := by
    rw [unpack, Array.toList_map, List.map_map]
    exact (List.map_id _).symm
  marks := rfl
  size := hs.size
  marked := by
    intro i
    have hmem : (∀ t ∈ s.unpack.threads, t.index ≠ i) ↔ i ∉ s.items := by
      simp only [unpack, Array.forall_mem_map]
      exact ⟨fun hall hi => hall i hi rfl, fun hnot j hj heq => hnot (heq ▸ hj)⟩
    rw [hmem, unpack, hs.size]
    exact hs.marked i
  rows := hs.rows
  holds := by
    intro t ht instr _ _
    rw [unpack, Array.toList_map] at ht
    obtain ⟨i, -, rfl⟩ := List.mem_map.mp ht
    rfl

theorem Mirrors.isFor {a : Lockstep.ThreadSet} (hs : s.Mirrors p stride a)
    (hnodup : s.items.toList.Nodup) : s.IsFor p stride where
  nodup := hnodup
  size := hs.marks ▸ hs.size
  marked := by
    intro i
    have hmem : (∀ t ∈ a.threads, t.index ≠ i) ↔ i ∉ s.items := by
      rw [← Array.mem_toList_iff, hs.items, List.mem_map]
      simp only [Array.mem_toList_iff, not_exists, not_and]
    rw [hs.marks, hs.marked, hs.size, hmem]
  rows := hs.rows

theorem IsFor.mem_freeSet (hs : s.IsFor p stride) :
    i ∈ s.marks.freeSet ↔ i < p.size ∧ i ∉ s.items :=
  Marks.mem_freeSet.trans (hs.marked i)

theorem IsClosed.settled (hclosed : s.IsClosed p h pos) (hs : s.IsFor p stride) :
    (p.layer h pos).Settled (Finset.range p.size) s.marks.freeSet := by
  intro i hi hnot j hj hfree
  rw [hs.mem_freeSet, not_and_not_right] at hnot
  exact (hs.mem_freeSet.mp hfree).2 (hclosed i (hnot (Finset.mem_range.mp hi)) j hj)

/-- A path that has come to `i` at `pos` with `slots` adds the threads `new` to a set.  They come in
the order in which a search in depth that prefers first targets meets their instructions. -/
structure IsExtended (p : Program) (h : ByteArray) (pos i : Nat) (slots : Slots)
    (s : ThreadSet) (new : List Nat) (s' : ThreadSet) : Prop where
  items : s'.items.toList = s.items.toList ++ new
  mem_iff : ∀ j, j ∈ new ↔ j ∉ s.items ∧ Relation.ReflTransGen (p.layer h pos).Follows i j
  /-- A thread comes before another if the first route to it does. -/
  order : new.Pairwise fun j k => ∀ path path', (p.layer h pos).IsFirstRoute i j path →
    (p.layer h pos).IsFirstRoute i k path' →
      (p.layer h pos).address path < (p.layer h pos).address path'
  /-- What a new thread keeps is stored along the first route to it. -/
  row_new : ∀ j ∈ new, ∃ path, (p.layer h pos).IsFirstRoute i j path ∧
    ∀ instr, p.instrs[j]? = some instr → instr.keepsSlots →
      p.IsStoredAlong pos path slots (s'.rows.row j)
  row_old : ∀ j ∈ s.items, s'.rows.row j = s.rows.row j
  isFor : s'.IsFor p slots.size
  isClosed : s'.IsClosed p h pos

end ThreadSet

/-! ## The threads of a path -/

/-- The threads that a search in depth visits from instruction `i` at `pos`, if it passes over those
of the set. -/
def ThreadSet.added (p : Program) (h : ByteArray) (pos i : Nat) (slots : Slots) (s : ThreadSet) :
    List Lockstep.Thread :=
  (p.layer h pos).visits s.marks.freeSet [⟨i, slots⟩]

/-- In storage a path leaves no task, and adds the threads that a search in depth visits. -/
theorem exists_mirrors_follow (hs : s.IsFor p slots.size) (h : ByteArray) (pos i steps : Nat) :
    (follow p h pos i ⟨[], slots, steps⟩ s).1.tasks = [] ∧
      ∃ a : Lockstep.ThreadSet,
        (follow p h pos i ⟨[], slots, steps⟩ s).2.Mirrors p slots.size a ∧
        a.threads.toList = s.unpack.threads.toList ++ s.added p h pos i slots := by
  let c : Lockstep.Closure := ⟨slots, s.unpack, steps⟩
  have hclose : (follow p h pos i ⟨[], slots, steps⟩ s).1.IsAtRest slots.size
        (Lockstep.close p h pos [.visit i] c).steps ∧
      (follow p h pos i ⟨[], slots, steps⟩ s).2.Mirrors p slots.size
        (Lockstep.close p h pos [.visit i] c).set :=
    mirrors_close [.visit i] hs.mirrors_unpack rfl
  have hthreads : (Lockstep.close p h pos [.visit i] c).set.threads.toList =
      s.unpack.threads.toList ++ s.added p h pos i slots :=
    Lockstep.threads_close_visit hs.size
  exact ⟨hclose.1.tasks, _, hclose.2, hthreads⟩

theorem items_follow (hs : s.IsFor p slots.size) (h : ByteArray) (pos i steps : Nat) :
    (follow p h pos i ⟨[], slots, steps⟩ s).2.items.toList =
      s.items.toList ++ (s.added p h pos i slots).map (·.index) := by
  obtain ⟨-, a, hmirrors, hthreads⟩ := exists_mirrors_follow hs h pos i steps
  rw [hmirrors.items, hthreads, List.map_append, ← hs.mirrors_unpack.items]

/-- The row of a new thread that keeps slots holds its own. -/
theorem row_follow (hs : s.IsFor p slots.size) {t : Lockstep.Thread}
    (ht : t ∈ s.added p h pos i slots) {instr : Instr} (hinstr : p.instrs[t.index]? = some instr)
    (hkeeps : instr.keepsSlots) (steps : Nat) :
    (follow p h pos i ⟨[], slots, steps⟩ s).2.rows.row t.index = t.slots := by
  obtain ⟨-, a, hmirrors, hthreads⟩ := exists_mirrors_follow hs h pos i steps
  have hmem : t ∈ a.threads.toList := by
    rw [hthreads]
    exact List.mem_append_right _ ht
  exact hmirrors.holds t hmem instr hinstr hkeeps

theorem ThreadSet.IsFor.freeSet_subset (hs : s.IsFor p stride) :
    s.marks.freeSet ⊆ Finset.range p.size :=
  fun _ hj => Finset.mem_range.mpr (hs.mem_freeSet.mp hj).1

theorem forall_mem_range_of_succ (hp : p.Regular) (h : ByteArray) (pos : Nat) :
    ∀ k ∈ Finset.range p.size, ∀ k' ∈ (p.layer h pos).succ k, k' ∈ Finset.range p.size :=
  fun _ _ _ hk' => Finset.mem_range.mpr (Program.lt_size_of_mem_targetsAt hp hk')

/-- The new threads are at the instructions that the path reaches and that had none. -/
theorem exists_mem_added_iff (hp : p.Regular) (hi : i < p.size) (hs : s.IsFor p stride)
    (hclosed : s.IsClosed p h pos) :
    (∃ t ∈ s.added p h pos i slots, t.index = j) ↔
      j ∉ s.items ∧ Relation.ReflTransGen (p.layer h pos).Follows i j := by
  have hlt : Relation.ReflTransGen (p.layer h pos).Follows i j → j < p.size := by
    intro hpath
    rcases hpath.cases_tail with rfl | ⟨k, -, hk⟩
    · exact hi
    · exact Program.lt_size_of_mem_targetsAt hp hk
  have hmet := (p.layer h pos).exists_mem_visits_iff (a := ⟨i, slots⟩) (k := j) hs.freeSet_subset
    (hclosed.settled hs) (Finset.mem_range.mpr hi) (forall_mem_range_of_succ hp h pos)
  rw [hs.mem_freeSet] at hmet
  refine hmet.trans ⟨fun ⟨hfree, hpath⟩ => ⟨hfree.2, hpath⟩, ?_⟩
  exact fun ⟨hnot, hpath⟩ => ⟨⟨hlt hpath, hnot⟩, hpath⟩

/-- The new threads come by the first routes to them and in the order of these routes, and have
stored what is written along them. -/
theorem exists_added_eq_map_fst (hp : p.Regular) (hi : i < p.size) (hs : s.IsFor p stride)
    (hclosed : s.IsClosed p h pos) (slots : Slots) :
    ∃ rs : List (Lockstep.Thread × List Nat), s.added p h pos i slots = rs.map Prod.fst ∧
      (rs.Pairwise fun r r' => (p.layer h pos).address r.2 < (p.layer h pos).address r'.2) ∧
      ∀ r ∈ rs, (p.layer h pos).IsFirstRoute i r.1.index r.2 ∧
        p.stored (r.1.index, pos) r.1.slots = p.written slots (r.2.map (·, pos)) := by
  obtain ⟨rs, hvisits, hordered, hrs⟩ := (p.layer h pos).exists_visits_eq_map_fst
    (a := ⟨i, slots⟩) (Program.nodup_targetsAt hp h pos) hs.freeSet_subset (hclosed.settled hs)
    (Finset.mem_range.mpr hi) (forall_mem_range_of_succ hp h pos)
  refine ⟨rs, hvisits, hordered, fun r hr => ?_⟩
  obtain ⟨hroute, hfirst⟩ := hrs r hr
  exact ⟨hfirst, Program.stored_of_mem_routes hroute⟩

/-- Two new threads at one instruction would have come by the same route. -/
theorem nodup_added (hp : p.Regular) (hi : i < p.size) (hs : s.IsFor p stride)
    (hclosed : s.IsClosed p h pos) (slots : Slots) :
    ((s.added p h pos i slots).map (·.index)).Nodup := by
  obtain ⟨rs, hadded, hordered, hrs⟩ := exists_added_eq_map_fst hp hi hs hclosed slots
  rw [hadded, List.map_map, List.Nodup, List.pairwise_map]
  refine hordered.imp_of_mem fun {r r'} hr hr' hlt heq => ?_
  have hindex : r.1.index = r'.1.index := heq
  have hroute := (hrs r hr).1
  rw [hindex] at hroute
  rw [hroute.unique _ (hrs r' hr').1] at hlt
  exact lt_irrefl _ hlt

/-- The set holds what it has held, and what the path reaches. -/
theorem mem_items_follow (hp : p.Regular) (hi : i < p.size) (hs : s.IsFor p slots.size)
    (hclosed : s.IsClosed p h pos) (steps : Nat) :
    j ∈ (follow p h pos i ⟨[], slots, steps⟩ s).2.items ↔
      j ∈ s.items ∨ Relation.ReflTransGen (p.layer h pos).Follows i j := by
  rw [← Array.mem_toList_iff, items_follow hs, List.mem_append, List.mem_map,
    exists_mem_added_iff hp hi hs hclosed, Array.mem_toList_iff]
  tauto

theorem isClosed_follow (hp : p.Regular) (hi : i < p.size) (hs : s.IsFor p slots.size)
    (hclosed : s.IsClosed p h pos) (steps : Nat) :
    (follow p h pos i ⟨[], slots, steps⟩ s).2.IsClosed p h pos := by
  intro j hj k hk
  rw [mem_items_follow hp hi hs hclosed] at hj ⊢
  rcases hj with hj | hpath
  · exact Or.inl (hclosed j hj k hk)
  · exact Or.inr (hpath.tail hk)

theorem isFor_follow (hp : p.Regular) (hi : i < p.size) (hs : s.IsFor p slots.size)
    (hclosed : s.IsClosed p h pos) (steps : Nat) :
    (follow p h pos i ⟨[], slots, steps⟩ s).2.IsFor p slots.size := by
  obtain ⟨-, a, hmirrors, -⟩ := exists_mirrors_follow hs h pos i steps
  apply hmirrors.isFor
  rw [items_follow hs, List.nodup_append']
  refine ⟨hs.nodup, nodup_added hp hi hs hclosed slots, fun j hj hj' => ?_⟩
  have hnew := (exists_mem_added_iff hp hi hs hclosed).mp (List.mem_map.mp hj')
  exact hnew.1 (Array.mem_toList_iff.mp hj)

/-- A path that is followed into a closed set adds the threads that it reaches, and leaves a closed
set. -/
theorem exists_isExtended_follow (hp : p.Regular) (hi : i < p.size) (hs : s.IsFor p slots.size)
    (hclosed : s.IsClosed p h pos) (steps : Nat) :
    ∃ new, s.IsExtended p h pos i slots new (follow p h pos i ⟨[], slots, steps⟩ s).2 := by
  obtain ⟨rs, hadded, hordered, hrs⟩ := exists_added_eq_map_fst hp hi hs hclosed slots
  refine ⟨(s.added p h pos i slots).map (·.index), items_follow hs h pos i steps, ?_, ?_, ?_, ?_,
    isFor_follow hp hi hs hclosed steps, isClosed_follow hp hi hs hclosed steps⟩
  · intro j
    rw [List.mem_map]
    exact exists_mem_added_iff hp hi hs hclosed
  · rw [hadded, List.map_map, List.pairwise_map]
    refine hordered.imp_of_mem fun {r r'} hr hr' hlt path path' hpath hpath' => ?_
    rwa [hpath.unique _ (hrs r hr).1, hpath'.unique _ (hrs r' hr').1]
  · intro j hj
    obtain ⟨t, ht, rfl⟩ := List.mem_map.mp hj
    obtain ⟨r, hr, rfl⟩ := List.mem_map.mp (hadded ▸ ht)
    obtain ⟨hfirst, hstored⟩ := hrs r hr
    refine ⟨r.2, hfirst, fun instr hinstr hkeeps => ?_⟩
    rw [Program.stored_of_keepsSlots hinstr hkeeps] at hstored
    rw [row_follow hs ht hinstr hkeeps, hstored]
    exact Program.isStoredAlong_written p pos r.2 slots
  · intro j hj
    exact row_close p h pos _ fun hfree => ((hs.marked j).mp hfree).2 hj

/-- For every program that is compiled from a pattern: a path that comes to an instruction at some
position, with some slots, is followed into a closed set.  It leaves no task and the slots that it
has found, and adds to the set the threads that it reaches. -/
theorem follow_extends_closed_set {o : ParserOptions} {pattern : String} {e : Expr}
    {longest : Bool} {limit : Nat} (hparse : Expr.parse o pattern = .ok e)
    (hcompile : Program.compile longest limit e = .ok p) (hi : i < p.size)
    (hs : s.IsFor p slots.size) (hclosed : s.IsClosed p h pos) (steps : Nat) :
    (follow p h pos i ⟨[], slots, steps⟩ s).1.tasks = [] ∧
      (follow p h pos i ⟨[], slots, steps⟩ s).1.slots = slots ∧
      ∃ new, s.IsExtended p h pos i slots new (follow p h pos i ⟨[], slots, steps⟩ s).2 := by
  obtain rfl := Program.eq_ofExpr_of_compile hcompile
  have hregular := Program.regular_ofExpr longest (Expr.wellFormed_of_parse hparse)
  refine ⟨(exists_mirrors_follow hs h pos i steps).1, ?_, ?_⟩
  · exact slots_close _ h pos ⟨[.visit i], slots, steps⟩ s
  · exact exists_isExtended_follow hregular hi hs hclosed steps

/-- In the program of `(a|b)*` a path that has left the loop comes to the match, and one that begins
is followed into the set of its threads. -/
theorem follow_repeatedGroup_extends_closed_set :
    Expr.parse {} "(a|b)*" = .ok Expr.repeatedGroup ∧
      Program.compile false 100000 Expr.repeatedGroup = .ok (.ofExpr false .repeatedGroup) ∧
      ∃ (s : ThreadSet) (old new : List Nat), 7 ∈ s.items ∧
        (ThreadSet.blank (Program.ofExpr false .repeatedGroup).size 4).IsExtended
          (.ofExpr false .repeatedGroup) "ab".toUTF8 0 7 (Slots.blank 4) old s ∧
        s.IsExtended (.ofExpr false .repeatedGroup) "ab".toUTF8 0 0 (Slots.blank 4) new
          (follow (.ofExpr false .repeatedGroup) "ab".toUTF8 0 0 ⟨[], Slots.blank 4, 0⟩ s).2 := by
  have hcompile : Program.compile false 100000 Expr.repeatedGroup =
      .ok (.ofExpr false .repeatedGroup) := by
    rw [Program.compile_eq]
    exact if_pos (by decide)
  have hsize : 7 < (Program.ofExpr false .repeatedGroup).size := by decide
  have hfor : (ThreadSet.blank (Program.ofExpr false .repeatedGroup).size 4).IsFor
      (.ofExpr false .repeatedGroup) (Slots.blank 4).size :=
    ThreadSet.isFor_blank _ 4
  have hclosed := ThreadSet.isClosed_blank (.ofExpr false .repeatedGroup) "ab".toUTF8 0
    (Program.ofExpr false .repeatedGroup).size 4
  obtain ⟨-, -, old, hold⟩ := follow_extends_closed_set Expr.parse_repeatedGroup hcompile hsize
    hfor hclosed 0
  obtain ⟨-, -, new, hnew⟩ := follow_extends_closed_set (i := 0) Expr.parse_repeatedGroup hcompile
    (Nat.zero_lt_of_lt hsize) hold.isFor hold.isClosed 0
  have hmem : 7 ∈ old := (hold.mem_iff 7).mpr ⟨Array.not_mem_empty 7, .refl⟩
  refine ⟨Expr.parse_repeatedGroup, hcompile, _, old, new, ?_, hold, hnew⟩
  rw [← Array.mem_toList_iff, hold.items]
  exact List.mem_append_right _ hmem

end Storage
end LinearRegex
