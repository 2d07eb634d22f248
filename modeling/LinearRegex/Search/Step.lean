import LinearRegex.Search.Input

/-!
# Steps of a program

A program is at an instruction and at a position of the haystack.  This module says where it can go
from there, and how a search that follows one path after the other keeps the slots of the path it
is on: with every path it puts off, it also puts off undoing what it stores meanwhile.
-/

namespace LinearRegex

namespace Instr

/-- Where the instruction goes on at `pos` without consuming a byte, the preferred target first. -/
def targetsAt (h : ByteArray) (pos : Nat) : Instr → List Nat
  | look l next => if l.holds h pos then [next] else []
  | instr => instr.targets

/-- Where the instruction goes on after consuming the byte at `pos`. -/
def nextAt? (h : ByteArray) (pos : Nat) (instr : Instr) : Option Nat :=
  h[pos]?.bind instr.next?

/-- The instructions and positions that follow an instruction at `pos`, the preferred one first. -/
def successors (h : ByteArray) (pos : Nat) (instr : Instr) : List (Nat × Nat) :=
  (instr.targetsAt h pos).map (·, pos) ++ ((instr.nextAt? h pos).map (·, pos + 1)).toList

/-- The slots after an instruction at `pos`. -/
def store (slots : Slots) (pos : Nat) : Instr → Slots
  | save slot _ => slots.store slot (some pos)
  | _ => slots

end Instr

/-- What a search has put off: a visit, or giving a slot the offset back that it had before. -/
inductive Task (α : Type) where
  | visit (a : α)
  | restore (slot : Nat) (old : Option Nat)

/-- The tasks that undo what an instruction stores. -/
def Instr.undo {α : Type} (slots : Slots) : Instr → List (Task α)
  | save slot _ => [.restore slot (slots.offset? slot)]
  | _ => []

namespace Task

/-- The tasks that an instruction leaves: to visit what follows it, and then to undo what it
stores. -/
def after {α : Type} (slots : Slots) (instr : Instr) (successors : List α) : List (Task α) :=
  successors.map visit ++ instr.undo slots

theorem length_targetsAt_le (h : ByteArray) (pos : Nat) (instr : Instr) :
    (instr.targetsAt h pos).length ≤ instr.targets.length := by
  cases instr with
  | look l next =>
    simp only [Instr.targetsAt, Instr.targets]
    split <;> simp
  | _ => exact Nat.le_refl _

theorem length_undo_le {α : Type} (slots : Slots) (instr : Instr) :
    instr.targets.length + (instr.undo (α := α) slots).length ≤ 2 := by
  cases instr <;> simp [Instr.targets, Instr.undo]

theorem length_after_targets_le (h : ByteArray) (pos : Nat) (slots : Slots) (instr : Instr) :
    (after slots instr (instr.targetsAt h pos)).length ≤ 2 := by
  have htargets := length_targetsAt_le h pos instr
  have hundo := length_undo_le (α := Nat) slots instr
  simp only [after, List.length_append, List.length_map]
  omega

theorem length_after_successors_le (h : ByteArray) (pos : Nat) (slots : Slots) (instr : Instr) :
    (after slots instr (instr.successors h pos)).length ≤ 2 := by
  have htargets := length_targetsAt_le h pos instr
  have hundo := length_undo_le (α := Nat × Nat) slots instr
  have hnext : ((instr.nextAt? h pos).map (·, pos + 1)).toList.length ≤ 1 := by
    cases instr.nextAt? h pos <;> simp
  have hexclusive : instr.targets.length + (instr.undo (α := Nat × Nat) slots).length ≤ 1 ∨
      instr.nextAt? h pos = none := by
    cases instr <;> simp [Instr.targets, Instr.undo, Instr.nextAt?, Instr.next?]
  simp only [after, Instr.successors, List.length_append, List.length_map]
  rcases hexclusive with hle | hnone
  · omega
  · rw [hnone, Option.map_none, Option.toList_none, List.length_nil]
    omega

end Task
end LinearRegex
