import LinearRegex.Proofs.Search.Threads
import LinearRegex.Storage.Threads

/-!
# Threads and their rows

A set in storage mirrors a set of threads that carry their slots with them (`ThreadSet.Mirrors`):
where an instruction keeps slots, its row holds those of its thread.  Only the rows of instructions
that have a thread are spoken of, so nothing is said of what other searches have left in the table.
Between two searches nothing is marked and the table has the size that the marks tell
(`ThreadSet.IsTidy`); that is all that the next search asks for (`IsTidy.resize`).
-/

namespace LinearRegex

/-! ## Rows -/

namespace SlotTable

variable {t : SlotTable} {i j : Nat} {s : Slots}

theorem size_foldl_store (cells : Slots) (base n : Nat) (f : Nat → Option Nat) :
    ((List.range n).foldl (fun cells k => cells.store (base + k) (f k)) cells).size =
      cells.size := by
  induction n with
  | zero => rfl
  | succ n ih =>
    rw [List.range_succ, List.foldl_append, List.foldl_cons, List.foldl_nil, Slots.size_store, ih]

theorem getElem?_foldl_store (cells : Slots) (base n k : Nat) (f : Nat → Option Nat) :
    ((List.range n).foldl (fun cells k => cells.store (base + k) (f k)) cells)[k]? =
      if base ≤ k ∧ k < base + n then cells[k]?.map fun _ => f (k - base) else cells[k]? := by
  induction n with
  | zero => rw [List.range_zero, List.foldl_nil, if_neg (by omega)]
  | succ n ih =>
    rw [List.range_succ, List.foldl_append, List.foldl_cons, List.foldl_nil, Slots.store,
      Array.getElem?_setIfInBounds, size_foldl_store]
    by_cases hlast : base + n = k
    · subst hlast
      have hrange : base ≤ base + n ∧ base + n < base + (n + 1) := by omega
      rw [if_pos rfl, if_pos hrange, Nat.add_sub_cancel_left]
      by_cases hin : base + n < cells.size
      · rw [if_pos hin, getElem?_pos cells _ hin, Option.map_some]
      · rw [if_neg hin, getElem?_neg cells _ hin, Option.map_none]
    · have hiff : (base ≤ k ∧ k < base + (n + 1)) ↔ (base ≤ k ∧ k < base + n) := by omega
      rw [if_neg hlast, ih]
      simp only [hiff]

theorem getElem?_row (t : SlotTable) (i k : Nat) :
    (t.row i)[k]? = if k < t.stride then t.cells[i * t.stride + k]? else none := by
  rw [row, Array.getElem?_extract, Nat.succ_mul]
  by_cases hk : k < t.stride
  · rw [if_pos hk]
    split
    · rfl
    · next hout => exact (getElem?_neg t.cells _ (by omega)).symm
  · rw [if_neg hk, if_neg (by omega)]

/-- A row in the table has all its slots. -/
theorem size_row (h : (i + 1) * t.stride ≤ t.cells.size) : (t.row i).size = t.stride := by
  rw [row, Array.size_extract, Nat.min_eq_left h, Nat.succ_mul]
  omega

@[simp] theorem stride_setRow (t : SlotTable) (i : Nat) (s : Slots) :
    (t.setRow i s).stride = t.stride :=
  rfl

theorem getElem?_cells_setRow (t : SlotTable) (i k : Nat) (s : Slots) :
    (t.setRow i s).cells[k]? =
      if i * t.stride ≤ k ∧ k < i * t.stride + t.stride then
        t.cells[k]?.map fun _ => s.offset? (k - i * t.stride)
      else t.cells[k]? :=
  getElem?_foldl_store t.cells (i * t.stride) t.stride k s.offset?

theorem size_cells_setRow (t : SlotTable) (i : Nat) (s : Slots) :
    (t.setRow i s).cells.size = t.cells.size :=
  size_foldl_store t.cells (i * t.stride) t.stride s.offset?

/-- What is written to a row is read from it. -/
theorem row_setRow_self (h : (i + 1) * t.stride ≤ t.cells.size) (hs : s.size = t.stride) :
    (t.setRow i s).row i = s := by
  rw [Nat.succ_mul] at h
  refine Array.ext_getElem? fun k => ?_
  rw [getElem?_row, stride_setRow, getElem?_cells_setRow]
  by_cases hk : k < t.stride
  · rw [if_pos hk, if_pos (by omega), getElem?_pos t.cells _ (by omega), Option.map_some,
      Nat.add_sub_cancel_left, Slots.offset?, getElem?_pos s k (hs ▸ hk), Option.join_some]
  · rw [if_neg hk, getElem?_neg s k (hs ▸ hk)]

/-- Writing a row leaves the others as they are. -/
theorem row_setRow_of_ne (h : i ≠ j) : (t.setRow i s).row j = t.row j := by
  refine Array.ext_getElem? fun k => ?_
  rw [getElem?_row, getElem?_row, stride_setRow, getElem?_cells_setRow]
  by_cases hk : k < t.stride
  · have hapart : ¬ (i * t.stride ≤ j * t.stride + k ∧
        j * t.stride + k < i * t.stride + t.stride) := by
      rcases Nat.lt_or_gt_of_ne h with hij | hji
      · have hrow := Nat.mul_le_mul_right t.stride (Nat.succ_le_of_lt hij)
        rw [Nat.succ_mul] at hrow
        omega
      · have hrow := Nat.mul_le_mul_right t.stride (Nat.succ_le_of_lt hji)
        rw [Nat.succ_mul] at hrow
        omega
    rw [if_neg hapart]
  · rw [if_neg hk, if_neg hk]

/-- The table has `n` rows of `stride` slots. -/
structure HasRows (n stride : Nat) (t : SlotTable) : Prop where
  stride_eq : t.stride = stride
  size_cells : t.cells.size = n * stride

variable {n stride : Nat}

theorem hasRows_blank (n stride : Nat) : (blank n stride).HasRows n stride :=
  ⟨rfl, Slots.size_blank _⟩

theorem HasRows.setRow (h : t.HasRows n stride) (i : Nat) (s : Slots) :
    (t.setRow i s).HasRows n stride :=
  ⟨h.stride_eq, (size_cells_setRow t i s).trans h.size_cells⟩

theorem HasRows.le_size_cells (h : t.HasRows n stride) (hi : i < n) :
    (i + 1) * t.stride ≤ t.cells.size := by
  rw [h.size_cells, h.stride_eq]
  exact Nat.mul_le_mul_right stride hi

theorem HasRows.size_row (h : t.HasRows n stride) (hi : i < n) : (t.row i).size = stride :=
  (SlotTable.size_row (h.le_size_cells hi)).trans h.stride_eq

theorem HasRows.row_setRow_self (h : t.HasRows n stride) (hi : i < n) (hs : s.size = stride) :
    (t.setRow i s).row i = s :=
  SlotTable.row_setRow_self (h.le_size_cells hi) (hs.trans h.stride_eq.symm)

/-- The rows of those threads whose instructions keep slots hold their slots. -/
def Holds (p : Program) (t : SlotTable) (ts : List Lockstep.Thread) : Prop :=
  ∀ u ∈ ts, ∀ instr, p.instrs[u.index]? = some instr → instr.keepsSlots → t.row u.index = u.slots

theorem Holds.of_cons {p : Program} {u : Lockstep.Thread} {us : List Lockstep.Thread}
    (h : t.Holds p (u :: us)) : t.Holds p us :=
  fun v hv => h v (List.mem_cons_of_mem u hv)

end SlotTable

/-! ## Sets -/

namespace Storage
namespace ThreadSet

variable {p : Program} {stride : Nat} {a : Lockstep.ThreadSet} {s : ThreadSet}

/-- The set has the threads of `a`, with the same slots where they are kept. -/
structure Mirrors (p : Program) (stride : Nat) (a : Lockstep.ThreadSet) (s : ThreadSet) :
    Prop where
  items : s.items.toList = a.threads.toList.map (·.index)
  marks : s.marks = a.marks
  size : a.marks.size = p.size
  marked : a.IsMarked
  rows : s.rows.HasRows p.size stride
  holds : s.rows.Holds p a.threads.toList

theorem Mirrors.isEmpty_eq (h : s.Mirrors p stride a) : s.items.isEmpty = a.threads.isEmpty := by
  rw [← Array.isEmpty_toList, ← Array.isEmpty_toList, h.items, List.isEmpty_map]

/-- A visit adds a thread to both.  As its instruction had none, no row that is spoken of is
written over. -/
theorem Mirrors.visit (h : s.Mirrors p stride a) {i : Nat} {instr : Instr} {slots : Slots}
    (hi : p.instrs[i]? = some instr) (hfree : a.marks.isFree i) (hsize : slots.size = stride) :
    (s.visit i instr slots).Mirrors p stride (a.push ⟨i, slots⟩) := by
  have hnew : ∀ t ∈ a.threads.toList, i ≠ t.index :=
    fun t ht => (((h.marked i).mp hfree).2 t (Array.mem_toList_iff.mp ht)).symm
  have hlt : i < p.size := Program.lt_size_of_instr hi
  have hitems : (s.items.push i).toList = (a.push ⟨i, slots⟩).threads.toList.map (·.index) := by
    rw [Array.toList_push, h.items, Lockstep.ThreadSet.push, Array.toList_push, List.map_append]
    rfl
  have hmarks : s.marks.mark i = (a.push ⟨i, slots⟩).marks := by
    rw [h.marks, Lockstep.ThreadSet.push]
  have hroom : (a.push ⟨i, slots⟩).marks.size = p.size := (Marks.size_mark _ _).trans h.size
  have hmem : ∀ t ∈ (a.push ⟨i, slots⟩).threads.toList, t ∈ a.threads.toList ∨ t = ⟨i, slots⟩ := by
    intro t ht
    rwa [Lockstep.ThreadSet.push, Array.toList_push, List.mem_append, List.mem_singleton] at ht
  unfold ThreadSet.visit
  split
  · -- The row of the new thread is none of those that `a` speaks of.
    refine ⟨hitems, hmarks, hroom, h.marked.push _, h.rows.setRow i slots, ?_⟩
    intro t ht instr' hinstr' hkeeps
    obtain hold | rfl := hmem t ht
    · exact (SlotTable.row_setRow_of_ne (hnew t hold)).trans (h.holds t hold instr' hinstr' hkeeps)
    · exact h.rows.row_setRow_self hlt hsize
  · next hnot =>
    refine ⟨hitems, hmarks, hroom, h.marked.push _, h.rows, ?_⟩
    intro t ht instr' hinstr' hkeeps
    obtain hold | rfl := hmem t ht
    · exact h.holds t hold instr' hinstr' hkeeps
    · rw [hi, Option.some.injEq] at hinstr'
      exact absurd (hinstr' ▸ hkeeps) hnot

theorem Mirrors.marks_clear (h : s.Mirrors p stride a) :
    s.clear.marks = Marks.blank p.size := by
  rw [← h.size, ← h.marked.marks_clear, clear, Lockstep.ThreadSet.clear, ← Array.foldl_toList,
    ← Array.foldl_toList, h.items, List.foldl_map, h.marks]

/-- A set without threads mirrors another if it has the same room. -/
theorem mirrors_of_isEmpty (hitems : s.items = #[]) (hmarks : s.marks = Marks.blank p.size)
    (hrows : s.rows.HasRows p.size stride) :
    s.Mirrors p stride ⟨#[], Marks.blank p.size⟩ where
  items := by rw [hitems]; rfl
  marks := hmarks
  size := Marks.size_blank _
  marked := Lockstep.ThreadSet.isMarked_blank _
  rows := hrows
  holds := nofun

theorem Mirrors.clear (h : s.Mirrors p stride a) : s.clear.Mirrors p stride a.clear := by
  have hclear : a.clear = ⟨#[], Marks.blank p.size⟩ := by
    rw [← h.size, ← h.marked.marks_clear, Lockstep.ThreadSet.clear]
  exact hclear ▸ mirrors_of_isEmpty rfl h.marks_clear h.rows

/-- The set has no threads and no marks, and as many rows as it has room for marks. -/
structure IsTidy (s : ThreadSet) : Prop where
  items : s.items = #[]
  marks : s.marks = Marks.blank s.marks.size
  rows : s.rows.HasRows s.marks.size s.rows.stride

theorem isTidy_empty : IsTidy {} :=
  ⟨rfl, rfl, rfl, rfl⟩

/-- Whatever a set held before, it is tidy when its threads have been removed. -/
theorem Mirrors.isTidy_clear (h : s.Mirrors p stride a) : s.clear.IsTidy := by
  have hsize : s.clear.marks.size = p.size := by rw [h.marks_clear, Marks.size_blank]
  refine ⟨rfl, ?_, ?_⟩
  · rw [hsize]
    exact h.marks_clear
  · rw [hsize]
    exact ⟨rfl, h.rows.stride_eq.symm ▸ h.rows.size_cells⟩

theorem IsTidy.clear_eq (h : s.IsTidy) : s.clear = s := by
  obtain ⟨items, marks, rows⟩ := s
  obtain rfl : items = #[] := h.items
  rfl

/-- A tidy set can be used for any program and any number of slots. -/
theorem IsTidy.resize (h : s.IsTidy) (p : Program) (stride : Nat) :
    (s.resize p.size stride).Mirrors p stride ⟨#[], Marks.blank p.size⟩ := by
  unfold ThreadSet.resize
  rw [h.clear_eq]
  split
  · next hroom =>
    obtain ⟨hsize, hstride⟩ := hroom
    exact mirrors_of_isEmpty h.items (hsize ▸ h.marks) (hsize ▸ hstride ▸ h.rows)
  · exact mirrors_of_isEmpty rfl rfl (SlotTable.hasRows_blank _ _)

end ThreadSet
end Storage
end LinearRegex
