import LinearRegex.Text.Digits

/-!
# Dates and times

Dates and times have a fixed number of digits in each of their parts, which must be in their ranges.
No setting is a date, so they are only passed over.
-/

namespace LinearRegex
namespace Toml

/-- Reads a number of exactly `count` digits. -/
def readFixed (count : Nat) (cs : List Char) : Option (Nat × List Char) :=
  let digits := cs.take count
  if digits.length = count ∧ digits.all Char.isDigit then
    some (Text.digitsValue 10 digits, cs.drop count)
  else none

/-- Passes over a number of two digits that is in a range. -/
def skipPart (least greatest : Nat) (cs : List Char) : Option (List Char) :=
  match readFixed 2 cs with
  | some (n, cs) => if least ≤ n ∧ n ≤ greatest then some cs else none
  | none => none

def skipChar (c : Char) : List Char → Option (List Char)
  | d :: cs => if c = d then some cs else none
  | [] => none

def isLeapYear (year : Nat) : Bool :=
  year % 4 = 0 && (year % 100 ≠ 0 || year % 400 = 0)

def daysOfMonth (year month : Nat) : Nat :=
  if month = 2 then if isLeapYear year then 29 else 28
  else if month ∈ [4, 6, 9, 11] then 30
  else 31

/-- A year and a hyphen: nothing else but a date starts like this. -/
def startsDate (cs : List Char) : Bool :=
  match readFixed 4 cs with
  | some (_, '-' :: _) => true
  | _ => false

/-- An hour and a colon: nothing else but a time starts like this. -/
def startsTime (cs : List Char) : Bool :=
  match skipPart 0 23 cs with
  | some (':' :: _) => true
  | _ => false

/-- Passes over a date. -/
def skipDate (cs : List Char) : Option (List Char) := do
  let (year, cs) ← readFixed 4 cs
  let (month, cs) ← readFixed 2 (← skipChar '-' cs)
  if 1 ≤ month ∧ month ≤ 12 then
    skipPart 1 (daysOfMonth year month) (← skipChar '-' cs)
  else none

/-- Passes over the fraction of a second, if there is one. -/
def skipFraction : List Char → List Char
  | '.' :: c :: cs => if c.isDigit then cs.dropWhile Char.isDigit else '.' :: c :: cs
  | cs => cs

/-- Passes over a time.  A minute may have a leap second. -/
def skipTime (cs : List Char) : Option (List Char) := do
  let cs ← skipPart 0 23 cs
  let cs ← skipPart 0 59 (← skipChar ':' cs)
  let cs ← skipPart 0 60 (← skipChar ':' cs)
  return skipFraction cs

/-- Passes over the distance from universal time, if it is given. -/
def skipOffset : List Char → Option (List Char)
  | c :: cs =>
    if c = 'Z' ∨ c = 'z' then some cs
    else if c = '+' ∨ c = '-' then do
      let cs ← skipPart 0 23 cs
      skipPart 0 59 (← skipChar ':' cs)
    else some (c :: cs)
  | [] => some []

/-- Passes over a date, and over a time on it if there is one. -/
def skipDateTime (cs : List Char) : Option (List Char) := do
  match ← skipDate cs with
  | c :: cs =>
    if (c = 'T' ∨ c = 't' ∨ c = ' ') ∧ startsTime cs then skipOffset (← skipTime cs)
    else return c :: cs
  | [] => return []

end Toml
end LinearRegex
