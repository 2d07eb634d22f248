import LinearRegex.Json.Number
import LinearRegex.Json.Text

/-!
# Reading JSON

Who reads a JSON text asks for values of certain kinds, one after the other.  The text is read from
front to back, and no further than to the first fault.  A fault is either that the text is no JSON
or that a value is of another kind than the one asked for; which of the two comes first decides.
-/

namespace LinearRegex
namespace Json

/-- The reasons for which reading ends early. -/
inductive Fault where
  /-- The text is not JSON. -/
  | malformed
  /-- A value is of another kind than the one asked for. -/
  | mismatch
deriving DecidableEq

/-- Reads from the front of a text, and returns what is left. -/
abbrev Reader (α : Type) :=
  List Char → Except Fault (α × List Char)

/-- What was read, unless it is no JSON. -/
def orMalformed {α : Type} : Option α → Except Fault α
  | some a => .ok a
  | none => .error .malformed

/-- The words that are values. -/
def words : List (List Char) :=
  [['n', 'u', 'l', 'l'], ['t', 'r', 'u', 'e'], ['f', 'a', 'l', 's', 'e']]

/-- Passes over one of the words. -/
def skipWord (cs : List Char) : Option (List Char) :=
  (words.find? (·.isPrefixOf cs)).map fun word => cs.drop word.length

/-- The fault in front of a value of another kind than the one asked for.  A string, a number or a
word is read before its kind is found fault with; of an array or an object only the bracket is. -/
def otherKind : List Char → Fault
  | '[' :: _ => .mismatch
  | '\x7b' :: _ => .mismatch
  | '"' :: cs => if (readString [] cs).isSome then .mismatch else .malformed
  | cs => if (readNumber cs).isSome || (skipWord cs).isSome then .mismatch else .malformed

/-- Reads a value that has to be a string. -/
def readText : Reader String := fun cs =>
  match skipBlank cs with
  | '"' :: cs => orMalformed (readString [] cs)
  | cs => .error (otherKind cs)

/-- Reads a value that has to be a number below `limit`, written with digits only. -/
def readNatural (limit : Nat) : Reader Nat := fun cs =>
  match readNumber (skipBlank cs) with
  | some (.natural n, cs) => if n < limit then .ok (n, cs) else .error .mismatch
  | some (.other, _) => .error .mismatch
  | none => .error (otherKind (skipBlank cs))

/-- Passes over a colon. -/
def skipColon (cs : List Char) : Option (List Char) :=
  match skipBlank cs with
  | ':' :: cs => some cs
  | _ => none

/-! ### Passing over a value -/

/-- What a value can stand in. -/
inductive Enclosure where
  | array
  | object

/-- The bracket at the end. -/
def Enclosure.closing : Enclosure → Char
  | array => ']'
  | object => '\x7d'

/-- Passes over what stands in front of a value. -/
def Enclosure.skipToValue : Enclosure → List Char → Option (List Char)
  | array, cs => some cs
  | object, cs =>
    match skipBlank cs with
    | '"' :: cs => (skipString cs).bind skipColon
    | _ => none

/-- Passes over what follows a value: the brackets that are closed, and a comma, behind which the
next value starts.  Returns what is still open. -/
def skipAfterValue : List Enclosure → List Char → Option (List Enclosure × List Char)
  | [], cs => some ([], cs)
  | e :: enclosing, cs =>
    match skipBlank cs with
    | ',' :: cs => (e.skipToValue cs).map (e :: enclosing, ·)
    | c :: cs => if c = e.closing then skipAfterValue enclosing cs else none
    | [] => none

/-- Passes over an opening bracket. -/
def skipOpening (enclosing : List Enclosure) (e : Enclosure) (cs : List Char) :
    Option (List Enclosure × List Char) :=
  match skipBlank cs with
  | c :: rest =>
    if c = e.closing then skipAfterValue enclosing rest
    else (e.skipToValue (c :: rest)).map (e :: enclosing, ·)
  | [] => none

/-- Passes over an opening bracket, or over a value that has none. -/
def skipStep (enclosing : List Enclosure) (cs : List Char) :
    Option (List Enclosure × List Char) :=
  match skipBlank cs with
  | '[' :: cs => skipOpening enclosing .array cs
  | '\x7b' :: cs => skipOpening enclosing .object cs
  | '"' :: cs => (skipString cs).bind (skipAfterValue enclosing)
  | cs => ((skipWord cs).or (skipNumber cs)).bind (skipAfterValue enclosing)

/-- Passes over values until nothing is open, in at most `fuel` steps. -/
def skipValues (fuel : Nat) (enclosing : List Enclosure) (cs : List Char) : Option (List Char) :=
  match fuel with
  | 0 => none
  | fuel + 1 =>
    match skipStep enclosing cs with
    | some ([], cs) => some cs
    | some (enclosing, cs) => skipValues fuel enclosing cs
    | none => none

/-- Passes over a value of any kind, nested as deep as it may be.  Every step takes a character at
least, so `fuel` has to be as large as the number of characters. -/
def skipValue (fuel : Nat) (cs : List Char) : Except Fault (List Char) :=
  orMalformed (skipValues fuel [] cs)

end Json
end LinearRegex
