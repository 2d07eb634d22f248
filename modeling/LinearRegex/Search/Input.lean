import LinearRegex.Program.Basic
import LinearRegex.Text.Utf8

/-!
# What a search is given and what it finds

A search is given a haystack, the offset where it starts, and whether the ends of the match are
fixed.  It finds the offsets of the match and of its groups.
-/

namespace LinearRegex

structure Input where
  haystack : ByteArray
  /-- No match starts before this offset.  Assertions see what stands before it. -/
  start : Nat := 0
  /-- The match starts at `start`. -/
  anchoredStart : Bool := false
  /-- The match ends at the end of the haystack. -/
  anchoredEnd : Bool := false
  /-- Groups other than group 0 are asked for. -/
  wantsGroups : Bool := true

/-- Two offsets of a haystack. -/
structure Span where
  start : Nat
  stop : Nat
deriving DecidableEq

def Span.isEmpty (s : Span) : Bool :=
  s.start == s.stop

/-- Slots hold offsets: `2 * i` and `2 * i + 1` the start and the end of group `i`. -/
abbrev Slots := Array (Option Nat)

namespace Slots

/-- Slots that hold nothing. -/
def blank (n : Nat) : Slots :=
  Array.replicate n none

/-- The offset in slot `i`. -/
def offset? (s : Slots) (i : Nat) : Option Nat :=
  s[i]?.join

/-- The start of the match, 0 if it is not stored. -/
def start (s : Slots) : Nat :=
  (s.offset? 0).getD 0

/-- The end of the match, 0 if it is not stored. -/
def stop (s : Slots) : Nat :=
  (s.offset? 1).getD 0

/-- Stores an offset in slot `i`, if there is such a slot. -/
def store (s : Slots) (i : Nat) (offset : Option Nat) : Slots :=
  s.setIfInBounds i offset

/-- Stores an offset in each of the given slots. -/
def storeAll (s : Slots) (is : List Nat) (offset : Nat) : Slots :=
  is.foldl (fun s i => s.store i (some offset)) s

end Slots

/-- The offsets of a match and of its groups. -/
structure Captures where
  slots : Slots
deriving DecidableEq

namespace Captures

/-- The captures with the given first slots, out of `count`. -/
def ofSlots (count : Nat) (s : Slots) : Captures :=
  ⟨s ++ Slots.blank (count - s.size)⟩

/-- The number of groups, group 0 included. -/
def size (c : Captures) : Nat :=
  c.slots.size / 2

/-- The span of group `i`, if it took part in the match. -/
def group? (c : Captures) (i : Nat) : Option Span :=
  match c.slots.offset? (2 * i), c.slots.offset? (2 * i + 1) with
  | some start, some stop => some ⟨start, stop⟩
  | _, _ => none

/-- The number of groups whose slots have different numbers.  Slots are numbered by words of 64
bits, and a group has two. -/
def maxGroups : Nat := UInt64.size / 2

/-- The span of the group that a caller asks for.  Where the numbers of slots end, they begin again
with slot 0. -/
def get? (c : Captures) (i : Nat) : Option Span :=
  c.group? (i % maxGroups)

theorem get?_of_lt (c : Captures) {i : Nat} (h : i < maxGroups) : c.get? i = c.group? i := by
  rw [get?, Nat.mod_eq_of_lt h]

/-- The spans of all groups. -/
def groups (c : Captures) : List (Option Span) :=
  (List.range c.size).map c.group?

/-- The span of the match. -/
def span (c : Captures) : Span :=
  (c.group? 0).getD ⟨0, 0⟩

end Captures

namespace Input

/-- The match of `p` is bound to start where the search does. -/
def anchoredFor (input : Input) (p : Program) : Bool :=
  input.anchoredStart || p.anchored

/-- The number of slots that a search has to keep. -/
def slotsFor (input : Input) (p : Program) : Nat :=
  if input.wantsGroups then p.slotCount else 2

/-- A match may end at `pos`. -/
def mayEndAt (input : Input) (pos : Nat) : Bool :=
  !input.anchoredEnd || pos == input.haystack.size

/-- The number of bytes from the start of the search to the end of the haystack. -/
def length (input : Input) : Nat :=
  input.haystack.size - input.start

end Input
end LinearRegex
