import LinearRegex.Proofs.Program.Regular

/-!
# What is put off

The tasks of a search that keeps one array of slots stand for visits with slots of their own
(`Task.resolve`).  Undoing what an instruction stores gives the visits that were put off before it
the slots that they had (`Task.resolve_after`), and so all tasks together leave the slots that a
path began with (`Task.restored_after`).
-/

namespace LinearRegex
namespace Task

variable {α : Type}

/-- The visits that tasks stand for, each with the slots that it will find. -/
def resolve (slots : Slots) : List (Task α) → List (α × Slots)
  | [] => []
  | visit a :: rest => (a, slots) :: resolve slots rest
  | restore slot old :: rest => resolve (slots.store slot old) rest

theorem resolve_map_visit (slots : Slots) (as : List α) (rest : List (Task α)) :
    resolve slots (as.map visit ++ rest) = as.map (·, slots) ++ resolve slots rest := by
  induction as with
  | nil => rfl
  | cons a as ih =>
    rw [List.map_cons, List.cons_append, resolve, ih]
    rfl

/-- The visits that follow an instruction find the slots that it leaves, and those that were put
off before find the slots that it found. -/
theorem resolve_after (slots : Slots) (pos : Nat) (instr : Instr) (as : List α)
    (rest : List (Task α)) :
    resolve (instr.store slots pos) (after slots instr as ++ rest) =
      as.map (·, instr.store slots pos) ++ resolve slots rest := by
  rw [after, List.append_assoc, resolve_map_visit]
  congr 1
  cases instr with
  | save slot next =>
    rw [Instr.undo, Instr.store, List.cons_append, List.nil_append, resolve,
      Slots.store_store_offset?]
  | _ => rfl

/-- The slots that are left once all tasks have been carried out, if every visit leaves those that
it has found. -/
def restored (slots : Slots) : List (Task α) → Slots
  | [] => slots
  | visit _ :: rest => restored slots rest
  | restore slot old :: rest => restored (slots.store slot old) rest

theorem restored_map_visit (slots : Slots) (as : List α) (rest : List (Task α)) :
    restored slots (as.map visit ++ rest) = restored slots rest := by
  induction as with
  | nil => rfl
  | cons a as ih => exact ih

/-- What an instruction stores is undone with the tasks that it leaves. -/
theorem restored_after (slots : Slots) (pos : Nat) (instr : Instr) (as : List α)
    (rest : List (Task α)) :
    restored (instr.store slots pos) (after slots instr as ++ rest) = restored slots rest := by
  rw [after, List.append_assoc, restored_map_visit]
  cases instr with
  | save slot next =>
    rw [Instr.undo, Instr.store, List.cons_append, List.nil_append, restored,
      Slots.store_store_offset?]
  | _ => rfl

/-- What an instruction leaves to be visited is what follows it. -/
theorem visit_mem_after {slots : Slots} {instr : Instr} {as : List α} {a : α} :
    visit a ∈ after slots instr as ↔ a ∈ as := by
  have hundo : visit a ∉ instr.undo slots := by
    cases instr with
    | save slot next =>
      intro hmem
      cases List.mem_singleton.mp hmem
    | _ => exact List.not_mem_nil
  rw [after, List.mem_append, or_iff_left hundo,
    List.mem_map_of_injective fun _ _ heq => Task.visit.inj heq]

end Task
end LinearRegex
