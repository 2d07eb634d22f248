import LinearRegex.CharSet.Basic

/-!
# Tables of characters

The tables of this folder are texts such as `41-5A 61-7A AA`: ranges of code points and single code
points, in hexadecimal, ascending and apart, with blanks and line ends between them.
-/

namespace LinearRegex
namespace Unicode
namespace Table

/-- The value of a hexadecimal digit written with a capital letter. -/
def digitValue (c : Char) : Nat :=
  if c.isDigit then c.toNat - 48 else c.toNat - 55

/-- The character whose code point is written in hexadecimal. -/
def readChar (digits : String) : Char :=
  Char.ofNat (digits.foldl (fun n c => 16 * n + digitValue c) 0)

/-- The range written as `lo-hi`, or as `lo` alone. -/
def readRange (entry : String) : CharRange :=
  match entry.splitOn "-" with
  | [lo, hi] => CharRange.between (readChar lo) (readChar hi)
  | _ => CharRange.single (readChar entry)

/-- The set that a table lists. -/
def read (table : String) : CharSet :=
  ⟨((table.splitToList Char.isWhitespace).filter (!·.isEmpty)).map readRange⟩

end Table
end Unicode
end LinearRegex
