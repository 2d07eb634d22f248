import LinearRegex.Search.Input

/-!
# Searching for a literal

A program that amounts to a literal needs no steps at all: the literal is looked up in the
haystack.
-/

namespace LinearRegex
namespace Search

/-- The only position at which the literal can be found, the first one if no end of the match is
fixed. -/
def literalAt? (lit : LiteralPrefix) (input : Input) : Option Nat :=
  if input.anchoredStart then some input.start
  else if input.anchoredEnd then
    if input.start + lit.bytes.length ≤ input.haystack.size then
      some (input.haystack.size - lit.bytes.length)
    else none
  else lit.find? input.haystack input.start

/-- The first match of a literal. -/
def literal (lit : LiteralPrefix) (slotCount : Nat) (input : Input) : Option Captures :=
  match literalAt? lit input with
  | some pos =>
    let stop := pos + lit.bytes.length
    if lit.isAt input.haystack pos && input.mayEndAt stop then
      some (Captures.ofSlots slotCount #[some pos, some stop])
    else none
  | none => none

end Search
end LinearRegex
