import LinearRegex.Text.Digits

/-!
# Blanks, comments and strings

The text of a TOML document between its values, and its strings.  Only names are needed as text, so
a string that goes over several lines, which cannot be a name, is just passed over.  A reader that
returns nothing has found the document to be malformed.
-/

namespace LinearRegex
namespace Toml

/-- A character that a comment or a string may hold. -/
def isTextual (c : Char) : Bool :=
  c = '\t' || (' ' ≤ c && c ≠ '\x7f')

/-- Drops blanks and tabs. -/
def skipBlank (cs : List Char) : List Char :=
  cs.dropWhile fun c => c = ' ' || c = '\t'

/-- Passes over the end of a line. -/
def skipNewline : List Char → Option (List Char)
  | '\n' :: cs => some cs
  | '\r' :: '\n' :: cs => some cs
  | _ => none

/-- Passes over what is left of a line, which is blank or a comment. -/
def skipLine (cs : List Char) : Option (List Char) :=
  let rest :=
    match skipBlank cs with
    | '#' :: cs => cs.dropWhile isTextual
    | cs => cs
  if rest.isEmpty then some [] else skipNewline rest

/-- Drops blanks, line ends and comments. -/
def skipSpace (inComment : Bool) : List Char → List Char
  | '\n' :: cs => skipSpace false cs
  | '\r' :: '\n' :: cs => skipSpace false cs
  | c :: cs =>
    if inComment then
      if isTextual c then skipSpace true cs else c :: cs
    else if c = ' ' ∨ c = '\t' then skipSpace false cs
    else if c = '#' then skipSpace true cs
    else c :: cs
  | [] => []

/-- The character with the code that hexadecimal digits give. -/
def charOfDigits? (digits : List Char) : Option Char :=
  let code := Text.digitsValue 16 digits
  if digits.all (Text.isDigit 16) ∧ code.isValidChar then some (Char.ofNat code) else none

/-- The character that a backslash and the given letter stand for. -/
def simpleEscape? : Char → Option Char
  | '"' => some '"'
  | '\\' => some '\\'
  | 'b' => some '\x08'
  | 'f' => some '\x0c'
  | 'n' => some '\n'
  | 'r' => some '\r'
  | 't' => some '\t'
  | _ => none

/-- Reads what follows a double quote, after the characters `read`, up to the next. -/
def readEscaped (read : List Char) : List Char → Option (String × List Char)
  | '"' :: cs => some (String.ofList read.reverse, cs)
  | '\\' :: 'u' :: a :: b :: c :: d :: cs =>
    match charOfDigits? [a, b, c, d] with
    | some char => readEscaped (char :: read) cs
    | none => none
  | '\\' :: 'U' :: a :: b :: c :: d :: e :: f :: g :: h :: cs =>
    match charOfDigits? [a, b, c, d, e, f, g, h] with
    | some char => readEscaped (char :: read) cs
    | none => none
  | '\\' :: letter :: cs =>
    match simpleEscape? letter with
    | some char => readEscaped (char :: read) cs
    | none => none
  | c :: cs => if isTextual c ∧ c ≠ '\\' then readEscaped (c :: read) cs else none
  | [] => none

/-- Reads what follows a single quote, up to the next. -/
def readLiteral (cs : List Char) : Option (String × List Char) :=
  match cs.span fun c => isTextual c && c ≠ '\'' with
  | (text, '\'' :: cs) => some (String.ofList text, cs)
  | _ => none

/-- Three quotes end a string of several lines, and one or two more in front of them belong to it.
-/
def skipClosing (quote : Char) : List Char → List Char
  | c :: d :: cs =>
    if c = quote then if d = quote then cs else d :: cs
    else c :: d :: cs
  | [c] => if c = quote then [] else [c]
  | [] => []

/-- Passes over what follows three double quotes.  A backslash may also end a line. -/
def skipEscapedLines : List Char → Option (List Char)
  | '"' :: '"' :: '"' :: cs => some (skipClosing '"' cs)
  | '\\' :: 'u' :: a :: b :: c :: d :: cs =>
    if (charOfDigits? [a, b, c, d]).isSome then skipEscapedLines cs else none
  | '\\' :: 'U' :: a :: b :: c :: d :: e :: f :: g :: h :: cs =>
    if (charOfDigits? [a, b, c, d, e, f, g, h]).isSome then skipEscapedLines cs else none
  | '\\' :: c :: cs =>
    if (simpleEscape? c).isSome then skipEscapedLines cs
    else if (skipNewline (skipBlank (c :: cs))).isSome then skipEscapedLines (c :: cs)
    else none
  | '\r' :: '\n' :: cs => skipEscapedLines cs
  | c :: cs => if (isTextual c ∧ c ≠ '\\') ∨ c = '\n' then skipEscapedLines cs else none
  | [] => none

/-- Passes over what follows three single quotes. -/
def skipLiteralLines : List Char → Option (List Char)
  | '\'' :: '\'' :: '\'' :: cs => some (skipClosing '\'' cs)
  | '\r' :: '\n' :: cs => skipLiteralLines cs
  | c :: cs => if isTextual c ∨ c = '\n' then skipLiteralLines cs else none
  | [] => none

/-- Passes over a string, which starts with a quote. -/
def skipString : List Char → Option (List Char)
  | '"' :: '"' :: '"' :: cs => skipEscapedLines cs
  | '"' :: cs => (readEscaped [] cs).map (·.2)
  | '\'' :: '\'' :: '\'' :: cs => skipLiteralLines cs
  | '\'' :: cs => (readLiteral cs).map (·.2)
  | _ => none

end Toml
end LinearRegex
