import LinearRegex.Text.Digits

/-!
# JSON strings

What stands between the quotes of a JSON string.  A reader turns it into text and keeps to the
grammar: no characters below the space, and no half surrogates.  Where nobody asks for the text it
is only passed over, and then code units need not form characters.
-/

namespace LinearRegex
namespace Json

def isBlank (c : Char) : Bool :=
  c = ' ' || c = '\t' || c = '\n' || c = '\r'

def skipBlank (cs : List Char) : List Char :=
  cs.dropWhile isBlank

/-- The value of four hexadecimal digits. -/
def hexQuad? (a b c d : Char) : Option Nat :=
  let digits := [a, b, c, d]
  if digits.all (Text.isDigit 16) then some (Text.digitsValue 16 digits) else none

/-- The character of a code unit that is no half surrogate. -/
def charOfUnit? (n : Nat) : Option Char :=
  if n < 0xD800 ∨ 0xDFFF < n then some (Char.ofNat n) else none

/-- The character of two code units, which must be the halves of one. -/
def charOfUnits? (high low : Nat) : Option Char :=
  if 0xD800 ≤ high ∧ high ≤ 0xDBFF ∧ 0xDC00 ≤ low ∧ low ≤ 0xDFFF then
    some (Char.ofNat (0x10000 + (high - 0xD800) * 0x400 + (low - 0xDC00)))
  else none

/-- The character that a backslash and the given letter stand for. -/
def simpleEscape? : Char → Option Char
  | '"' => some '"'
  | '\\' => some '\\'
  | '/' => some '/'
  | 'b' => some '\x08'
  | 'f' => some '\x0c'
  | 'n' => some '\n'
  | 'r' => some '\r'
  | 't' => some '\t'
  | _ => none

/-- Reads what follows the opening quote of a string, after the characters `read` of it. -/
def readString (read : List Char) : List Char → Option (String × List Char)
  | '"' :: rest => some (String.ofList read.reverse, rest)
  | '\\' :: 'u' :: a :: b :: c :: d :: '\\' :: 'u' :: e :: f :: g :: h :: rest =>
    match hexQuad? a b c d with
    | none => none
    | some high =>
      match charOfUnit? high with
      | some char => readString (char :: read) ('\\' :: 'u' :: e :: f :: g :: h :: rest)
      | none =>
        match (hexQuad? e f g h).bind (charOfUnits? high) with
        | some char => readString (char :: read) rest
        | none => none
  | '\\' :: 'u' :: a :: b :: c :: d :: rest =>
    match (hexQuad? a b c d).bind charOfUnit? with
    | some char => readString (char :: read) rest
    | none => none
  | '\\' :: letter :: rest =>
    match simpleEscape? letter with
    | some char => readString (char :: read) rest
    | none => none
  | c :: rest => if c < ' ' ∨ c = '\\' then none else readString (c :: read) rest
  | [] => none

/-- Passes over what follows the opening quote of a string. -/
def skipString : List Char → Option (List Char)
  | '"' :: rest => some rest
  | '\\' :: 'u' :: a :: b :: c :: d :: rest =>
    if (hexQuad? a b c d).isSome then skipString rest else none
  | '\\' :: letter :: rest => if (simpleEscape? letter).isSome then skipString rest else none
  | c :: rest => if c < ' ' ∨ c = '\\' then none else skipString rest
  | [] => none

/-- A character in a string. -/
def escapeChar (c : Char) : List Char :=
  if c = '"' then ['\\', '"']
  else if c = '\\' then ['\\', '\\']
  else if c = '\x08' then ['\\', 'b']
  else if c = '\x0c' then ['\\', 'f']
  else if c = '\n' then ['\\', 'n']
  else if c = '\r' then ['\\', 'r']
  else if c = '\t' then ['\\', 't']
  else if c < ' ' then
    ['\\', 'u', '0', '0', Nat.digitChar (c.toNat / 16), Nat.digitChar (c.toNat % 16)]
  else [c]

/-- The text of a string. -/
def stringText (s : String) : String :=
  String.ofList ('"' :: s.toList.flatMap escapeChar ++ ['"'])

end Json
end LinearRegex
