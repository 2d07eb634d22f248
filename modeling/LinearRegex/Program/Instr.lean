import LinearRegex.Look
import LinearRegex.Text.Escaped

/-!
# Instructions

A program is an array of instructions that name each other by index.  `byteRange` and `sparse`
consume a byte; the others consume nothing, and go on to one or two instructions, to none, or to a
match.
-/

namespace LinearRegex

/-- A byte from `lo` to `hi` leads to the instruction `next`. -/
structure Transition where
  lo : UInt8
  hi : UInt8
  next : Nat
deriving DecidableEq

inductive Instr where
  /-- Consumes a byte as the transition says. -/
  | byteRange (t : Transition)
  /-- Consumes a byte as one of the transitions says.  They ascend and do not overlap. -/
  | sparse (ts : List Transition)
  /-- Goes on at two instructions, of which the first has priority. -/
  | split (first second : Nat)
  /-- Stores the position in a slot. -/
  | save (slot next : Nat)
  /-- Goes on only where an assertion holds. -/
  | look (l : Look) (next : Nat)
  | nop (next : Nat)
  /-- Goes nowhere. -/
  | fail
  /-- Ends with a match. -/
  | accept
deriving DecidableEq

namespace Transition

def accepts (t : Transition) (b : UInt8) : Bool :=
  t.lo ≤ b && b ≤ t.hi

/-- Where `b` leads, by transitions that ascend. -/
def find? : List Transition → UInt8 → Option Nat
  | [], _ => none
  | t :: ts, b => if b < t.lo then none else if b ≤ t.hi then some t.next else find? ts b

/-- The text of a transition in listings. -/
def text (t : Transition) : String :=
  "0x" ++ Text.hex t.lo.toNat 2 ++
    (if t.lo = t.hi then "" else "-0x" ++ Text.hex t.hi.toNat 2) ++
    " -> " ++ Text.decimal t.next 5

end Transition

namespace Instr

/-- Where the instruction goes on after consuming `b`. -/
def next? (i : Instr) (b : UInt8) : Option Nat :=
  match i with
  | byteRange t => if t.accepts b then some t.next else none
  | sparse ts => Transition.find? ts b
  | _ => none

def isConsuming : Instr → Bool
  | byteRange _ | sparse _ => true
  | _ => false

/-- The transitions of an instruction that consumes. -/
def transitions : Instr → List Transition
  | byteRange t => [t]
  | sparse ts => ts
  | _ => []

/-- Where the instruction goes on without consuming a byte, the preferred target first. -/
def targets : Instr → List Nat
  | split first second => [first, second]
  | save _ next | look _ next | nop next => [next]
  | _ => []

theorem length_targets_le (i : Instr) : i.targets.length ≤ 2 := by
  cases i <;> simp [targets]

/-- The text of an instruction in listings. -/
def text : Instr → String
  | byteRange t => (if t.lo = t.hi then "BYTE " else "RANGE ") ++ t.text
  | sparse ts => "SPARSE " ++ ", ".intercalate (ts.map Transition.text)
  | split first second => "SPLIT " ++ Text.decimal first 5 ++ ", " ++ Text.decimal second 5
  | save slot next => "SAVE " ++ toString slot ++ " -> " ++ Text.decimal next 5
  | look l next => "LOOK " ++ l.name ++ " -> " ++ Text.decimal next 5
  | nop next => "NOP -> " ++ Text.decimal next 5
  | fail => "FAIL"
  | accept => "MATCH"

end Instr
end LinearRegex
