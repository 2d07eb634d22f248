/-!
# Marks

A traversal that visits every instruction at most once marks those it has visited.  What bounds
it is the number of those still free, which every new mark lowers by one.
-/

namespace LinearRegex

/-- Which of the numbers below some bound are marked. -/
structure Marks where
  flags : Array Bool
deriving DecidableEq

namespace Marks

/-- No number below `n` is marked. -/
def blank (n : Nat) : Marks :=
  ⟨Array.replicate n false⟩

/-- The bound of the numbers that can be marked. -/
def size (m : Marks) : Nat :=
  m.flags.size

/-- The number `i` can be marked and is not. -/
def isFree (m : Marks) (i : Nat) : Bool :=
  m.flags[i]? == some false

/-- Marks `i`. -/
def mark (m : Marks) (i : Nat) : Marks :=
  ⟨m.flags.setIfInBounds i true⟩

/-- Takes the mark from `i`. -/
def unmark (m : Marks) (i : Nat) : Marks :=
  ⟨m.flags.setIfInBounds i false⟩

/-- How many numbers are free. -/
def free (m : Marks) : Nat :=
  m.flags.count false

theorem free_mark {m : Marks} {i : Nat} (h : m.isFree i) : (m.mark i).free + 1 = m.free := by
  simp only [isFree, beq_iff_eq] at h
  obtain ⟨hi, hfalse⟩ := Array.getElem?_eq_some_iff.mp h
  have hpos : (if m.flags[i] == false then 1 else 0) ≤ m.flags.count false :=
    Array.boole_getElem_le_count hi
  simp only [mark, free, Array.setIfInBounds, hi, dif_pos, Array.count_set]
  simp only [hfalse, beq_self_eq_true, if_true] at hpos ⊢
  simp only [Bool.true_beq, Bool.false_eq_true, if_false]
  omega

/-- A traversal with a stack comes to an end: a step that marks a number takes one entry off the
stack and puts two on it at most. -/
theorem measure_mark {α : Type} {m : Marks} {i : Nat} (h : m.isFree i) (new : List α)
    (hnew : new.length ≤ 2) (a : α) (rest : List α) :
    2 * (m.mark i).free + (new ++ rest).length < 2 * m.free + (a :: rest).length := by
  have := free_mark h
  rw [List.length_append, List.length_cons]
  omega

end Marks
end LinearRegex
