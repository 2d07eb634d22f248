import LinearRegex.Program.Marks
import LinearRegex.Proofs.Traversal.Basic

/-!
# Marks as sets

The marks of a traversal stand for the set of the numbers that are free.
-/

namespace LinearRegex
namespace Marks

@[simp] theorem size_blank (n : Nat) : (blank n).size = n :=
  Array.size_replicate

@[simp] theorem size_mark (m : Marks) (i : Nat) : (m.mark i).size = m.size :=
  Array.size_setIfInBounds

@[simp] theorem size_unmark (m : Marks) (i : Nat) : (m.unmark i).size = m.size :=
  Array.size_setIfInBounds

theorem lt_size_of_isFree {m : Marks} {i : Nat} (h : m.isFree i) : i < m.size := by
  rw [isFree, beq_iff_eq] at h
  exact (Array.getElem?_eq_some_iff.mp h).1

theorem isFree_blank {n i : Nat} : (blank n).isFree i ↔ i < n := by
  simp [isFree, blank, Array.getElem?_replicate]

theorem isFree_mark {m : Marks} {i j : Nat} : (m.mark i).isFree j ↔ j ≠ i ∧ m.isFree j := by
  rw [isFree, isFree, mark, beq_iff_eq, beq_iff_eq, Array.getElem?_setIfInBounds]
  by_cases hij : i = j
  · subst hij
    simp only [if_true, ne_eq, not_true_eq_false, false_and, iff_false]
    split <;> simp
  · rw [if_neg hij, and_iff_right (Ne.symm hij)]

theorem isFree_unmark {m : Marks} {i j : Nat} :
    (m.unmark i).isFree j ↔ j < m.size ∧ j = i ∨ m.isFree j := by
  rw [isFree, isFree, unmark, beq_iff_eq, beq_iff_eq, Array.getElem?_setIfInBounds]
  by_cases hij : i = j
  · subst hij
    rw [if_pos rfl]
    by_cases hi : i < m.flags.size
    · simp [hi, size]
    · simp [hi, size]
  · rw [if_neg hij]
    simp [Ne.symm hij]

/-- Marks of which all are free are as at first. -/
theorem eq_blank {m : Marks} (h : ∀ i < m.size, m.isFree i) : m = blank m.size := by
  obtain ⟨flags⟩ := m
  refine congrArg Marks.mk (Array.ext (Array.size_replicate).symm fun i hi _ => ?_)
  have hfree := h i hi
  rw [isFree, beq_iff_eq, Array.getElem?_eq_some_iff] at hfree
  obtain ⟨_, hfalse⟩ := hfree
  rw [hfalse, Array.getElem_replicate]

@[simp] theorem free_blank (n : Nat) : (blank n).free = n :=
  Array.count_replicate_self

/-- The numbers that are free. -/
def freeSet (m : Marks) : Finset Nat :=
  (Finset.range m.size).filter fun i => m.isFree i

theorem mem_freeSet {m : Marks} {i : Nat} : i ∈ m.freeSet ↔ m.isFree i := by
  rw [freeSet, Finset.mem_filter, Finset.mem_range]
  exact and_iff_right_of_imp lt_size_of_isFree

@[simp] theorem freeSet_blank (n : Nat) : (blank n).freeSet = Finset.range n := by
  ext i
  rw [mem_freeSet, isFree_blank, Finset.mem_range]

@[simp] theorem freeSet_mark (m : Marks) (i : Nat) : (m.mark i).freeSet = m.freeSet.erase i := by
  ext j
  rw [mem_freeSet, isFree_mark, Finset.mem_erase, mem_freeSet]

end Marks
end LinearRegex
