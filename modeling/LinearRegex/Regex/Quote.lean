import LinearRegex.Regex.Basic

/-!
# Quoting

A text is turned into a pattern that matches it literally.
-/

namespace LinearRegex
namespace Regex

/-- The characters that mean something in a pattern. -/
def metaChars : List Char :=
  ['\\', '.', '+', '*', '?', '(', ')', '|', '[', ']', '{', '}', '^', '$']

/-- A character as a pattern. -/
def quoteChar (c : Char) : List Char :=
  if metaChars.contains c then ['\\', c] else [c]

/-- The pattern that matches `text` literally. -/
def quote (text : String) : String :=
  String.ofList (text.toList.flatMap quoteChar)

end Regex
end LinearRegex
