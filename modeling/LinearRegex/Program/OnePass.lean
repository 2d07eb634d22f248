import LinearRegex.Program.Summary

/-!
# One-pass tables

A program is one-pass if the next byte alone decides which path to follow.  From the start, and
from wherever a byte leads, the paths that consume nothing are followed to their exits: the
instructions that consume a byte, and the end of the match.  None of these paths may meet another,
only one of them may end the match, and no byte may be accepted by two of them.
-/

namespace LinearRegex
namespace OnePass

/-- The largest program that is analysed. -/
def maxProgramSize : Nat := 1000

/-- A path that consumes nothing: where it has come to, and which slots it has stored and which
assertions it has made on its way. -/
structure Path where
  index : Nat
  slots : List Nat := []
  looks : List Look := []
deriving DecidableEq

/-- A path and the instruction that it ends with, which consumes a byte or ends the match. -/
structure Exit where
  path : Path
  instr : Instr
deriving DecidableEq

/-- The ways on from a path, the preferred one first. -/
def Path.continuations (p : Path) : Instr → List Path
  | .split first second => [{ p with index := first }, { p with index := second }]
  | .save slot next => [{ p with index := next, slots := p.slots ++ [slot] }]
  | .look l next => [{ p with index := next, looks := p.looks ++ [l] }]
  | .nop next => [{ p with index := next }]
  | _ => []

theorem Path.length_continuations_le (p : Path) (i : Instr) : (p.continuations i).length ≤ 2 := by
  cases i <;> simp [continuations]

/-- The exits found so far, and what they accept. -/
structure Exits where
  list : Array Exit := #[]
  bytes : ByteSet := ByteSet.empty
  accepts : Bool := false

/-- Adds the exit of a path that has come to an instruction, if it is one.  Refuses a second end of
the match, and bytes that another exit accepts. -/
def Exits.add? (exits : Exits) (p : Path) : Instr → Option Exits
  | .accept =>
    if exits.accepts then none
    else some { exits with list := exits.list.push ⟨p, .accept⟩, accepts := true }
  | instr =>
    if instr.isConsuming then
      let bytes := Summary.addTransitions ByteSet.empty instr.transitions
      if exits.bytes.intersects bytes then none
      else some { exits with
        list := exits.list.push ⟨p, instr⟩
        bytes := exits.bytes.union bytes }
    else some exits

/-- Follows the paths of `stack` to their exits.  Refuses to meet an instruction again. -/
def followPaths? (instrs : Array Instr) (stack : List Path) (seen : Marks) (exits : Exits) :
    Option Exits :=
  match stack with
  | [] => some exits
  | p :: rest =>
    if _hfree : seen.isFree p.index then
      match instrs[p.index]? with
      | none => none
      | some instr =>
        match exits.add? p instr with
        | none => none
        | some exits =>
          followPaths? instrs (p.continuations instr ++ rest) (seen.mark p.index) exits
    else none
termination_by 2 * seen.free + stack.length
decreasing_by
  exact Marks.measure_mark _hfree _ (p.length_continuations_le instr) p rest

/-- The exits of the paths from an instruction, the preferred ones first. -/
def exits? (instrs : Array Instr) (i : Nat) : Option (List Exit) :=
  (followPaths? instrs [{ index := i }] (Marks.blank instrs.size) {}).map (·.list.toList)

/-- Adds the instructions that were not found before to those that are pending. -/
def discover (found : Marks) (pending : List Nat) : List Nat → Marks × List Nat
  | [] => (found, pending)
  | i :: is =>
    if found.isFree i then discover (found.mark i) (i :: pending) is
    else discover found pending is

theorem discover_measure (is : List Nat) (found : Marks) (pending : List Nat) :
    (discover found pending is).1.free + (discover found pending is).2.length =
      found.free + pending.length := by
  induction is generalizing found pending with
  | nil => rfl
  | cons i is ih =>
    rw [discover]
    split
    · next hfree =>
      rw [ih, List.length_cons, ← Marks.free_mark hfree]
      omega
    · exact ih found pending

/-- The instructions that the exits lead to. -/
def successors (exits : List Exit) : List Nat :=
  exits.flatMap fun e => e.instr.transitions.map (·.next)

end OnePass

/-- The exits from the start of a program and from every instruction that a byte leads to. -/
structure OnePass where
  table : Array (Option (List OnePass.Exit))

namespace OnePass

/-- Fills the table for the pending instructions and for all that they lead to. -/
def fill? (instrs : Array Instr) (found : Marks) (pending : List Nat) (t : OnePass) :
    Option OnePass :=
  match pending with
  | [] => some t
  | i :: rest =>
    match exits? instrs i with
    | none => none
    | some exits =>
      fill? instrs (discover found rest (successors exits)).1
        (discover found rest (successors exits)).2 ⟨t.table.setIfInBounds i (some exits)⟩
termination_by found.free + pending.length
decreasing_by
  rw [discover_measure, List.length_cons]
  omega

/-- The table of a program, if the program is one-pass and not too large. -/
def ofInstrs? (instrs : Array Instr) : Option OnePass :=
  if instrs.size ≤ maxProgramSize then
    fill? instrs ((Marks.blank instrs.size).mark 0) [0] ⟨Array.replicate instrs.size none⟩
  else none

/-- The exits of the paths from an instruction; none if nothing leads there. -/
def exitsAt (t : OnePass) (i : Nat) : List Exit :=
  (t.table[i]?.join).getD []

/-- The number of instructions with an entry. -/
def size (t : OnePass) : Nat :=
  t.table.countP Option.isSome

end OnePass
end LinearRegex
