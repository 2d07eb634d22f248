import LinearRegex.Expr.Options

/-!
# Flags

The flags that a regular expression is built with.  Each has a bit, which is its written form, and
a name.
-/

namespace LinearRegex

structure Flags where
  /-- Letters match in either case. -/
  ignoreCase : Bool := false
  /-- A dot also matches a newline. -/
  dotAll : Bool := false
  /-- `^` and `$` match at the ends of every line. -/
  multiLine : Bool := false
  /-- `\p` and `\P` are no escapes. -/
  noUnicodeClasses : Bool := false
  /-- A search asks for the longest match instead of the preferred one. -/
  longest : Bool := false
  /-- `\b` and `\B` go by the Unicode word characters. -/
  unicodeWordBoundary : Bool := false
deriving DecidableEq

namespace Flags

/-- The flags in the order of their bits. -/
def toList (f : Flags) : List Bool :=
  [f.ignoreCase, f.dotAll, f.multiLine, f.noUnicodeClasses, f.longest, f.unicodeWordBoundary]

/-- The names in the order of the bits. -/
def names : List String :=
  ["CASE_INSENSITIVE", "DOTALL", "MULTILINE", "DISABLE_UNICODE_GROUPS", "LONGEST_MATCH",
    "UNICODE_WORD_BOUNDARY"]

/-- The number whose bits, from the lowest on, are given. -/
def ofDigits : List Bool → Nat
  | [] => 0
  | b :: bs => b.toNat + 2 * ofDigits bs

/-- The bits as a number. -/
def bits (f : Flags) : Nat :=
  ofDigits f.toList

/-- The flags with the given bits, if every bit is that of a flag. -/
def ofBits? (n : Nat) : Option Flags :=
  if n < 64 then
    some {
      ignoreCase := n.testBit 0
      dotAll := n.testBit 1
      multiLine := n.testBit 2
      noUnicodeClasses := n.testBit 3
      longest := n.testBit 4
      unicodeWordBoundary := n.testBit 5 }
  else none

/-- The names of the flags that are set. -/
def text (f : Flags) : String :=
  match ((names.zip f.toList).filter (·.2)).map (·.1) with
  | [] => "0x0"
  | set => " | ".intercalate set

end Flags

/-- The parser's options under the flags. -/
def ParserOptions.ofFlags (f : Flags) (nestLimit : Nat) : ParserOptions where
  modes := { ignoreCase := f.ignoreCase, dotAll := f.dotAll, multiLine := f.multiLine }
  unicodeClasses := !f.noUnicodeClasses
  unicodeWordBoundary := f.unicodeWordBoundary
  nestLimit := nestLimit

end LinearRegex
