import LinearRegex.Search.Input

/-!
# Sets of threads in storage

The slots of all threads of a set are kept in one flat table, with a row for every instruction.
Removing the threads removes their marks but leaves the rows as they are: a row is written when a
thread comes to its instruction, and not read before.  So a set can be used again for another
search, and is made anew only when the program or the number of slots has another size.
-/

namespace LinearRegex

/-- Rows of `stride` slots, one behind the other. -/
structure SlotTable where
  stride : Nat := 0
  cells : Slots := #[]

namespace SlotTable

/-- A table in which nothing is stored. -/
def blank (rows stride : Nat) : SlotTable :=
  ⟨stride, Slots.blank (rows * stride)⟩

/-- The slots in row `i`. -/
def row (t : SlotTable) (i : Nat) : Slots :=
  t.cells.extract (i * t.stride) ((i + 1) * t.stride)

/-- Copies slots to row `i`. -/
def setRow (t : SlotTable) (i : Nat) (s : Slots) : SlotTable where
  stride := t.stride
  cells := (List.range t.stride).foldl
    (fun cells k => cells.store (i * t.stride + k) (s.offset? k)) t.cells

end SlotTable

/-- The instruction keeps slots: it consumes a byte or ends a match. -/
def Instr.keepsSlots (instr : Instr) : Bool :=
  instr.isConsuming || instr == .accept

namespace Storage

/-- The instructions that have a thread, by preference, a mark on each of them, and a row of slots
for every instruction of the program. -/
structure ThreadSet where
  items : Array Nat := #[]
  marks : Marks := Marks.blank 0
  rows : SlotTable := {}

namespace ThreadSet

/-- A set for a program of `size` instructions, with `stride` slots for every thread. -/
def blank (size stride : Nat) : ThreadSet :=
  ⟨#[], Marks.blank size, SlotTable.blank size stride⟩

/-- Adds a thread at instruction `i` behind all others. -/
def insert (s : ThreadSet) (i : Nat) : ThreadSet :=
  { s with items := s.items.push i, marks := s.marks.mark i }

/-- Adds a thread at instruction `i`, with a copy of the slots if the instruction keeps them. -/
def visit (s : ThreadSet) (i : Nat) (instr : Instr) (slots : Slots) : ThreadSet :=
  if instr.keepsSlots then { s.insert i with rows := s.rows.setRow i slots } else s.insert i

theorem marks_visit (s : ThreadSet) (i : Nat) (instr : Instr) (slots : Slots) :
    (s.visit i instr slots).marks = s.marks.mark i := by
  unfold visit
  split <;> rfl

/-- Removes all threads. -/
def clear (s : ThreadSet) : ThreadSet :=
  { s with items := #[], marks := s.items.foldl Marks.unmark s.marks }

/-- Removes all threads, and makes room for those of a program of `size` instructions with `stride`
slots each, if there is another amount of room. -/
def resize (s : ThreadSet) (size stride : Nat) : ThreadSet :=
  if s.clear.marks.size = size ∧ s.clear.rows.stride = stride then s.clear else blank size stride

end ThreadSet
end Storage
end LinearRegex
