import LinearRegex.Unicode.Printing

/-!
# Text with escapes

Texts and characters are shown with escapes for what would not print: `\n` and its like, a
backslash before a quote or a backslash, and `\u{..}` with a code point in hexadecimal.  A
character that would attach to the one before it counts as not printing on its own.
-/

namespace LinearRegex
namespace Text

/-- The digits of a number in lower-case hexadecimal, with leading zeros up to `width`. -/
def hex (n width : Nat) : String :=
  let digits := Nat.toDigits 16 n
  String.ofList (List.replicate (width - digits.length) '0' ++ digits)

/-- The digits of a number, with leading zeros up to `width`. -/
def decimal (n width : Nat) : String :=
  let digits := Nat.toDigits 10 n
  String.ofList (List.replicate (width - digits.length) '0' ++ digits)

/-- What is escaped besides the characters that do not print. -/
structure Escapes where
  singleQuote : Bool
  doubleQuote : Bool
  combining : Bool

/-- A character under the given escapes. -/
def escapeChar (e : Escapes) (c : Char) : String :=
  if c = '\x00' then "\\0"
  else if c = '\t' then "\\t"
  else if c = '\r' then "\\r"
  else if c = '\n' then "\\n"
  else if c = '\\' then "\\\\"
  else if c = '"' && e.doubleQuote then "\\\""
  else if c = '\'' && e.singleQuote then "\\'"
  else if (e.combining && Unicode.isCombining c) || !Unicode.isPrintable c then
    "\\u\x7b" ++ hex c.toNat 1 ++ "\x7d"
  else c.toString

/-- A text between double quotes, as in `"a\n"`. -/
def quoted (s : String) : String :=
  let escapes : Escapes := ⟨false, true, true⟩
  "\"" ++ s.foldl (fun out c => out ++ escapeChar escapes c) "" ++ "\""

/-- A character between single quotes, as in `'\n'`. -/
def quotedChar (c : Char) : String :=
  "'" ++ escapeChar ⟨true, false, true⟩ c ++ "'"

/-- A text without quotes around it.  Both quotes are escaped in it, and of the characters that
attach to the one before them only a first one, which has nothing to attach to. -/
def escaped (s : String) : String :=
  match s.toList with
  | [] => ""
  | c :: rest =>
    rest.foldl (fun out c => out ++ escapeChar ⟨true, true, false⟩ c)
      (escapeChar ⟨true, true, true⟩ c)

end Text
end LinearRegex
