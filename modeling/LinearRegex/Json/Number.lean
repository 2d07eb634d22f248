import LinearRegex.Text.Digits

/-!
# JSON numbers

A number is cut into its parts first.  A number that is asked for must stay in the range of double
precision.  Its range is found the quick way: of the digits only those that fit into 64 bits count,
they are rounded, and the result is multiplied with a rounded power of ten.  So a number a little
below the limit may be refused as well.
-/

namespace LinearRegex
namespace Json

/-- The parts of a number in a text. -/
structure NumberParts where
  negative : Bool
  whole : List Char
  /-- The digits behind the point, if there is one. -/
  fraction? : Option (List Char)
  exponent? : Option Int

/-- What a number is read as. -/
inductive Number where
  /-- A number below `2 ^ 64`, written with digits only. -/
  | natural (n : Nat)
  | other
deriving DecidableEq

def digitValue (c : Char) : Nat :=
  (Text.digit? 10 c).getD 0

/-- Reads digits, of which there must be one at least. -/
def readDigits (cs : List Char) : Option (List Char × List Char) :=
  match cs.span Char.isDigit with
  | ([], _) => none
  | read => some read

/-- Reads the digits behind the point, if there is one. -/
def readFraction : List Char → Option (Option (List Char) × List Char)
  | '.' :: cs => (readDigits cs).map fun (digits, cs) => (some digits, cs)
  | cs => some (none, cs)

/-- No exponent needs to be told from a greater one. -/
def exponentLimit : Nat :=
  Nat.pow 2 31

/-- The value of the digits of an exponent. -/
def exponentValue (digits : List Char) : Nat :=
  digits.foldl (fun n c => min exponentLimit (10 * n + digitValue c)) 0

/-- Reads an exponent, if there is one. -/
def readExponent (cs : List Char) : Option (Option Int × List Char) :=
  let signed (sign : Int) (cs : List Char) :=
    (readDigits cs).map fun (digits, cs) => (some (sign * exponentValue digits), cs)
  match cs with
  | c :: rest =>
    if c = 'e' ∨ c = 'E' then
      match rest with
      | '-' :: rest => signed (-1) rest
      | '+' :: rest => signed 1 rest
      | rest => signed 1 rest
    else some (none, cs)
  | [] => some (none, cs)

/-- Cuts off a number.  A zero is not followed by other digits. -/
def cutNumber (cs : List Char) : Option (NumberParts × List Char) := do
  let negative := cs.head? = some '-'
  let (whole, cs) ← readDigits (if negative then cs.drop 1 else cs)
  if whole.head? = some '0' ∧ whole ≠ ['0'] then none
  let (fraction?, cs) ← readFraction cs
  let (exponent?, cs) ← readExponent cs
  return ({ negative, whole, fraction?, exponent? }, cs)

/-- Digits that fit into 64 bits, times a power of ten. -/
structure Scaled where
  digits : Nat
  exponent : Int

/-- A number that fits into 64 bits. -/
def fits (n : Nat) : Bool :=
  n < Nat.pow 2 64

/-- The whole part of a number, of which `n` has been read.  From the first digit that does not fit
on, digits count as zeros. -/
def wholePart (n : Nat) : List Char → Scaled
  | [] => ⟨n, 0⟩
  | c :: cs =>
    let n' := 10 * n + digitValue c
    if fits n' then wholePart n' cs else ⟨n, (c :: cs).length⟩

/-- Adds the digits behind the point, up to the first that does not fit. -/
def addFraction (s : Scaled) : List Char → Scaled
  | [] => s
  | c :: cs =>
    let n := 10 * s.digits + digitValue c
    if fits n then addFraction ⟨n, s.exponent - 1⟩ cs else s

/-- The digits that count, and their power of ten. -/
def NumberParts.scaled (p : NumberParts) : Scaled :=
  let s := addFraction (wholePart 0 p.whole) (p.fraction?.getD [])
  { s with exponent := s.exponent + p.exponent?.getD 0 }

/-- The number of 53 bits, times a power of two, that is nearest to `n`: of two that are equally
near, the one whose bits end with a zero. -/
def nearestDouble (n : Nat) : Nat :=
  let unit := Nat.pow 2 (n.log2 + 1 - 53)
  let low := n / unit
  let rest := 2 * (n % unit)
  if unit < rest ∨ (unit = rest ∧ low % 2 = 1) then (low + 1) * unit else low * unit

/-- The least number that is rounded to one past the range of double precision. -/
def doubleLimit : Nat :=
  Nat.pow 2 1024 - Nat.pow 2 970

/-- The number is past the range of double precision.  The greatest power of ten in that range has
the exponent 308. -/
def Scaled.isTooLarge (s : Scaled) : Bool :=
  s.digits ≠ 0 && 0 ≤ s.exponent &&
    (308 < s.exponent ||
      doubleLimit ≤ nearestDouble s.digits * nearestDouble (Nat.pow 10 s.exponent.toNat))

/-- What the parts of a number amount to. -/
def NumberParts.number (p : NumberParts) : Number :=
  let s := wholePart 0 p.whole
  if p.negative || p.fraction?.isSome || p.exponent?.isSome || s.exponent ≠ 0 then .other
  else .natural s.digits

/-- Reads a number. -/
def readNumber (cs : List Char) : Option (Number × List Char) := do
  let (parts, cs) ← cutNumber cs
  if parts.scaled.isTooLarge then none else some (parts.number, cs)

/-- Passes over a number, of whatever size. -/
def skipNumber (cs : List Char) : Option (List Char) :=
  (cutNumber cs).map (·.2)

end Json
end LinearRegex
