import LinearRegex.Program.ByteSet
import LinearRegex.Program.Instr
import LinearRegex.Program.LiteralPrefix
import LinearRegex.Program.Marks

/-!
# Summaries of a program

What can be read off a program before any search: the bytes that every match starts with, whether
every match starts at the start of the haystack, and the bytes that can come first in a match.
-/

namespace LinearRegex
namespace Summary

/-- What the only path from the start of a program shows, as far as there is only one. -/
structure Lead where
  /-- The bytes that the path consumes. -/
  bytes : Array UInt8 := #[]
  /-- The path asserts the start of the haystack before it consumes anything. -/
  anchored : Bool := false
  /-- The path stores the ends of groups other than group 0. -/
  hasGroups : Bool := false
  /-- The path ends with a match. -/
  ends : Bool := false

/-- Follows the path from the instruction `i`, for at most as many instructions as given. -/
def follow (instrs : Array Instr) : Nat → (i : Nat) → Lead → Lead
  | 0, _, lead => lead
  | steps + 1, i, lead =>
    match instrs[i]? with
    | some (.save slot next) =>
      follow instrs steps next { lead with hasGroups := lead.hasGroups || 2 ≤ slot }
    | some (.nop next) => follow instrs steps next lead
    | some (.look .startText next) =>
      if lead.bytes.isEmpty then follow instrs steps next { lead with anchored := true }
      else lead
    | some (.byteRange t) =>
      if t.lo = t.hi then follow instrs steps t.next { lead with bytes := lead.bytes.push t.lo }
      else lead
    | some .accept => { lead with ends := true }
    | _ => lead

/-- The path from the start of a program. -/
def lead (instrs : Array Instr) : Lead :=
  follow instrs instrs.size 0 {}

/-- The bytes that every match starts with.  They are all of the match if the path ends with them
and there is nothing else on it to tell. -/
def Lead.literal? (l : Lead) : Option LiteralPrefix :=
  if l.bytes.isEmpty then none
  else some ⟨l.bytes.toList, l.ends && !l.anchored && !l.hasGroups⟩

/-- Adds the bytes of transitions to a set. -/
def addTransitions (s : ByteSet) (ts : List Transition) : ByteSet :=
  ts.foldl (fun s t => s.addRange t.lo t.hi) s

/-- Adds the bytes that can come first from the instructions of `stack` on, unless a match can end
before its first byte. -/
def firstBytesFrom? (instrs : Array Instr) (stack : List Nat) (seen : Marks) (bytes : ByteSet) :
    Option ByteSet :=
  match stack with
  | [] => some bytes
  | i :: rest =>
    if _hfree : seen.isFree i then
      match instrs[i]? with
      | some .accept => none
      | some instr =>
        firstBytesFrom? instrs (instr.targets ++ rest) (seen.mark i)
          (addTransitions bytes instr.transitions)
      | none => firstBytesFrom? instrs rest (seen.mark i) bytes
    else firstBytesFrom? instrs rest seen bytes
termination_by 2 * seen.free + stack.length
decreasing_by
  · exact Marks.measure_mark _hfree _ instr.length_targets_le i rest
  · exact Marks.measure_mark _hfree [] (by simp) i rest
  · simp

/-- The bytes that can come first in a match, unless a match can be empty. -/
def firstBytes? (instrs : Array Instr) : Option ByteSet :=
  firstBytesFrom? instrs [0] (Marks.blank instrs.size) ByteSet.empty

end Summary
end LinearRegex
