import LinearRegex.Program.Assembly
import LinearRegex.Program.OnePass

/-!
# Programs

A program is what an expression is searched with: its instructions, the groups it has, and the
summaries that spare the engines work.
-/

namespace LinearRegex

structure Program where
  instrs : Array Instr
  /-- The groups, without group 0. -/
  groupCount : Nat
  /-- The names of groups, in the order of their numbers. -/
  groupNames : List (Nat × String)
  /-- A search asks for the longest match instead of the preferred one. -/
  longest : Bool
  /-- Every match starts at the start of the haystack. -/
  anchored : Bool
  /-- The bytes that every match starts with. -/
  literalPrefix? : Option LiteralPrefix
  /-- The bytes that can come first in a match; `none` if a match can be empty. -/
  firstBytes? : Option ByteSet
  onePass? : Option OnePass

namespace Program

/-- The most instructions that a program has unless a caller says otherwise. -/
def defaultSizeLimit : Nat := 100000

/-- The program with the given instructions, which are those of an expression. -/
def ofInstrs (longest : Bool) (e : Expr) (instrs : Array Instr) : Program :=
  let lead := Summary.lead instrs
  { instrs
    groupCount := e.captureCount
    groupNames := e.groupNames
    longest
    anchored := lead.anchored
    literalPrefix? := lead.literal?
    firstBytes? := Summary.firstBytes? instrs
    onePass? := OnePass.ofInstrs? instrs }

/-- The program of an expression. -/
def ofExpr (longest : Bool) (e : Expr) : Program :=
  ofInstrs longest e e.bytewise.programCode.toArray

/-- Assembles the program of an expression. -/
def compile (longest : Bool) (limit : Nat) (e : Expr) : Except TooLarge Program := do
  let instrs ← Assembly.assemble limit e.bytewise
  return ofInstrs longest e instrs

/-- The number of instructions. -/
def size (p : Program) : Nat :=
  p.instrs.size

/-- The number of slots: two for every group and two for group 0. -/
def slotCount (p : Program) : Nat :=
  2 * (p.groupCount + 1)

/-- The number of the group with a name. -/
def groupIndex? (p : Program) (name : String) : Option Nat :=
  (p.groupNames.find? fun group => group.2 == name).map (·.1)

/-- The literal that the program amounts to, if it amounts to one. -/
def literal? (p : Program) : Option LiteralPrefix :=
  p.literalPrefix?.filter fun lit => lit.complete && p.slotCount == 2

/-- One line per instruction. -/
def listing (p : Program) : List String :=
  p.instrs.toList.mapIdx fun i instr => Text.decimal i 5 ++ ": " ++ instr.text

end Program
end LinearRegex
