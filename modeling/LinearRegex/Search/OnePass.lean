import LinearRegex.Search.Input

/-!
# Searching with a one-pass table

At every position at most one exit accepts the next byte, so a single path is followed.  Where an
exit ends the match, the match is kept, and the path goes on only if that may lead to a match that
is preferred.
-/

namespace LinearRegex
namespace OnePass

/-- What the exits at a position have led to: a match, and the way on. -/
structure Choice where
  matched? : Option Slots
  /-- The next instruction, and the slots stored on the way to it. -/
  way? : Option (Nat × List Nat) := none

/-- The assertions on the way to an exit hold at `pos`. -/
def Exit.isOpen (e : Exit) (h : ByteArray) (pos : Nat) : Bool :=
  e.path.looks.all (·.holds h pos)

/-- Goes through the exits at `pos`.  When one ends the match, those behind it count only if the
longest match is asked for. -/
def choose (input : Input) (longest : Bool) (pos : Nat) (slots : Slots) :
    List Exit → Choice → Choice
  | [], choice => choice
  | e :: es, choice =>
    if e.isOpen input.haystack pos then
      if e.instr = .accept then
        if input.mayEndAt pos then
          let choice := { choice with matched? := some (slots.storeAll e.path.slots pos) }
          if longest then choose input longest pos slots es choice else choice
        else choose input longest pos slots es choice
      else
        let way? := (input.haystack[pos]?.bind e.instr.next?).map (·, e.path.slots)
        choose input longest pos slots es { choice with way? := choice.way?.or way? }
    else choose input longest pos slots es choice

/-- The match kept when no way leads on. -/
def run (t : OnePass) (input : Input) (longest : Bool) (i pos : Nat) (slots : Slots)
    (matched? : Option Slots) : Option Slots :=
  let choice := choose input longest pos slots (t.exitsAt i) { matched? }
  match choice.way? with
  | some (next, stored) =>
    if pos < input.haystack.size then
      run t input longest next (pos + 1) (slots.storeAll stored pos) choice.matched?
    else choice.matched?
  | none => choice.matched?
termination_by input.haystack.size - pos

end OnePass

namespace Search

/-- The match of a one-pass program that starts where the search does. -/
def onePass (t : OnePass) (p : Program) (input : Input) : Option Captures :=
  if input.start ≤ input.haystack.size ∧ Utf8.isBoundary input.haystack input.start then
    (t.run input p.longest 0 input.start (Slots.blank (input.slotsFor p)) none).map
      (Captures.ofSlots p.slotCount)
  else none

end Search
end LinearRegex
