import LinearRegex.Text.Digits

/-!
# Numbers

Integers fit into 64 bits and can be written in four bases.  A number with a fraction or an exponent
is read for its form only, since no setting is one; it must not be past the range of double
precision.
-/

namespace LinearRegex
namespace Toml

inductive Number where
  | integer (n : Int)
  | float
deriving DecidableEq

/-- Reads digits after those in `read`.  An underscore may stand between two digits. -/
def moreDigits (base : Nat) (read : List Char) : List Char → Option (List Char × List Char)
  | '_' :: c :: cs => if Text.isDigit base c then moreDigits base (c :: read) cs else none
  | ['_'] => none
  | c :: cs =>
    if Text.isDigit base c then moreDigits base (c :: read) cs else some (read.reverse, c :: cs)
  | [] => some (read.reverse, [])

/-- Reads digits, of which there must be one at least. -/
def readDigits (base : Nat) : List Char → Option (List Char × List Char)
  | c :: cs => if Text.isDigit base c then moreDigits base [c] cs else none
  | [] => none

/-- Reads the whole part of a decimal number.  Nothing follows a zero. -/
def readWhole : List Char → Option (List Char × List Char)
  | '0' :: cs => some (['0'], cs)
  | cs => readDigits 10 cs

/-- Reads the digits behind a point, if there is one. -/
def readFraction : List Char → Option (List Char × List Char)
  | '.' :: cs => readDigits 10 cs
  | cs => some ([], cs)

/-- Reads an exponent, if there is one. -/
def readExponent : List Char → Option (Option Int × List Char)
  | c :: cs =>
    let signed (sign : Int) (cs : List Char) :=
      (readDigits 10 cs).map fun (digits, cs) =>
        (some (sign * Text.digitsValue 10 digits), cs)
    if c = 'e' ∨ c = 'E' then
      match cs with
      | '-' :: cs => signed (-1) cs
      | '+' :: cs => signed 1 cs
      | cs => signed 1 cs
    else some (none, c :: cs)
  | [] => some (none, [])

/-- The least number that is rounded to one past the range of double precision. -/
def doubleLimit : Nat :=
  Nat.pow 2 1024 - Nat.pow 2 970

/-- `n * 10 ^ scale` is past the range of double precision.  Only numbers with as many digits before
the point as the limit need to be compared with it. -/
def isTooLarge (n : Nat) (scale : Int) : Bool :=
  let length : Int := (Nat.toDigits 10 n).length + scale
  n ≠ 0 && (309 < length ||
    (length = 309 && doubleLimit * Nat.pow 10 (-scale).toNat ≤ n * Nat.pow 10 scale.toNat))

/-- The integer, if it fits into 64 bits. -/
def ofInteger? (n : Int) : Option Number :=
  if -Int.pow 2 63 ≤ n ∧ n < Int.pow 2 63 then some (.integer n) else none

/-- Reads a decimal number without its sign.  Only positive numbers can be too large. -/
def readDecimal (negative : Bool) (cs : List Char) : Option (Number × List Char) := do
  let (whole, cs) ← readWhole cs
  let (fraction, cs) ← readFraction cs
  let (exponent?, cs) ← readExponent cs
  if fraction.isEmpty && exponent?.isNone then
    let n : Int := Text.digitsValue 10 whole
    (ofInteger? (if negative then -n else n)).map (·, cs)
  else
    let n := Text.digitsValue 10 (whole ++ fraction)
    if !negative && isTooLarge n (exponent?.getD 0 - fraction.length) then none
    else some (.float, cs)

/-- Reads an integer behind the mark of its base. -/
def readInBase (base : Nat) (cs : List Char) : Option (Number × List Char) := do
  let (digits, cs) ← readDigits base cs
  (ofInteger? (Text.digitsValue base digits)).map (·, cs)

/-- Reads a number behind its sign: one of the two that have names, or a decimal number. -/
def readUnsigned (negative : Bool) : List Char → Option (Number × List Char)
  | 'i' :: 'n' :: 'f' :: cs => some (.float, cs)
  | 'n' :: 'a' :: 'n' :: cs => some (.float, cs)
  | cs => readDecimal negative cs

/-- Reads a number. -/
def readNumber : List Char → Option (Number × List Char)
  | '+' :: cs => readUnsigned false cs
  | '-' :: cs => readUnsigned true cs
  | '0' :: 'x' :: cs => readInBase 16 cs
  | '0' :: 'o' :: cs => readInBase 8 cs
  | '0' :: 'b' :: cs => readInBase 2 cs
  | cs => readUnsigned false cs

end Toml
end LinearRegex
