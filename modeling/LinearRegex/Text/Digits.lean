/-!
# Digits

The digits of a base up to 36, and what a row of them stands for.
-/

namespace LinearRegex
namespace Text

/-- The digit that a character is in the given base.  Letters of either case follow the nine. -/
def digit? (base : Nat) (c : Char) : Option Nat :=
  let value :=
    if c.isDigit then c.toNat - '0'.toNat
    else if c.isLower then c.toNat - 'a'.toNat + 10
    else if c.isUpper then c.toNat - 'A'.toNat + 10
    else base
  if value < base then some value else none

def isDigit (base : Nat) (c : Char) : Bool :=
  (digit? base c).isSome

/-- The value of a row of digits. -/
def digitsValue (base : Nat) (digits : List Char) : Nat :=
  digits.foldl (fun n c => base * n + (digit? base c).getD 0) 0

end Text
end LinearRegex
