import LinearRegex.Toml.Number
import LinearRegex.Toml.Text
import LinearRegex.Toml.Time

/-!
# Values

The values of a TOML document.  Of a value that no setting can have, only its form is looked at.
Arrays and tables nest to a limit.
-/

namespace LinearRegex
namespace Toml

inductive Value where
  | bool (b : Bool)
  | integer (n : Int)
  | array (items : List Value)
  /-- A table between braces: keys, which may have several parts, and values. -/
  | table (entries : List (List String × Value))
  /-- A string, a number that is no integer, a date or a time. -/
  | other

/-- Fewer arrays and tables than this stand in each other, and a key has fewer parts. -/
def depthLimit : Nat := 80

/-- A character of a key without quotes. -/
def isKeyChar (c : Char) : Bool :=
  c.isAlphanum || c = '_' || c = '-'

/-- Reads a part of a key, with quotes or without. -/
def readKeyPart : List Char → Option (String × List Char)
  | '"' :: cs => readEscaped [] cs
  | '\'' :: cs => readLiteral cs
  | cs =>
    match cs.span isKeyChar with
    | ([], _) => none
    | (key, rest) => some (String.ofList key, rest)

/-- Reads the parts of a key, of which there are at most `fuel`.  They have points between them. -/
def readKey (fuel : Nat) (cs : List Char) : Option (List String × List Char) :=
  match fuel with
  | 0 => none
  | fuel + 1 =>
    match readKeyPart (skipBlank cs) with
    | none => none
    | some (part, cs) =>
      match skipBlank cs with
      | '.' :: cs => (readKey fuel cs).map fun (parts, cs) => (part :: parts, cs)
      | cs => some ([part], cs)

/-- Reads a key. -/
def readPath (cs : List Char) : Option (List String × List Char) :=
  readKey (depthLimit - 1) cs

/-- Reads a key and the sign behind it. -/
def readName (cs : List Char) : Option (List String × List Char) :=
  match readPath cs with
  | some (path, '=' :: cs) => some (path, cs)
  | _ => none

/-- A key can be added to a table if it leads to none of its values, nor past one of them. -/
def isFree (path : List String) (entries : List (List String × Value)) : Bool :=
  entries.all fun (other, _) => !(other.isPrefixOf path || path.isPrefixOf other)

/-- Reads a value without brackets. -/
def readSimple : List Char → Option (Value × List Char)
  | 't' :: 'r' :: 'u' :: 'e' :: cs => some (.bool true, cs)
  | 'f' :: 'a' :: 'l' :: 's' :: 'e' :: cs => some (.bool false, cs)
  | c :: cs =>
    if c = '"' ∨ c = '\'' then (skipString (c :: cs)).map (.other, ·)
    else if startsDate (c :: cs) then (skipDateTime (c :: cs)).map (.other, ·)
    else if startsTime (c :: cs) then (skipTime (c :: cs)).map (.other, ·)
    else
      match readNumber (c :: cs) with
      | some (.integer n, cs) => some (.integer n, cs)
      | some (.float, cs) => some (.other, cs)
      | none => none
  | [] => none

mutual

/-- Reads a value in at most `fuel` steps, in which arrays and tables nest to `depth` at most. -/
def readValue (fuel depth : Nat) (cs : List Char) : Option (Value × List Char) :=
  match fuel with
  | 0 => none
  | fuel + 1 =>
    match depth, cs with
    | 0, '[' :: _ => none
    | 0, '\x7b' :: _ => none
    | depth + 1, '[' :: cs => readItems fuel depth [] (skipSpace false cs)
    | depth + 1, '\x7b' :: cs =>
      match skipBlank cs with
      | '\x7d' :: cs => some (.table [], cs)
      | cs => readEntries fuel depth [] cs
    | _, cs => readSimple cs

/-- Reads the items of an array after those in `read`, and the bracket behind them.  A comma may
stand in front of the bracket. -/
def readItems (fuel depth : Nat) (read : List Value) (cs : List Char) :
    Option (Value × List Char) :=
  match fuel with
  | 0 => none
  | fuel + 1 =>
    match cs with
    | ']' :: cs => some (.array read.reverse, cs)
    | cs =>
      match readValue fuel depth cs with
      | none => none
      | some (v, cs) =>
        match skipSpace false cs with
        | ',' :: cs => readItems fuel depth (v :: read) (skipSpace false cs)
        | ']' :: cs => some (.array (v :: read).reverse, cs)
        | _ => none

/-- Reads the entries of a table after those in `read`, and the brace behind them.  A table stands
on one line. -/
def readEntries (fuel depth : Nat) (read : List (List String × Value)) (cs : List Char) :
    Option (Value × List Char) :=
  match fuel with
  | 0 => none
  | fuel + 1 =>
    match readName cs with
    | none => none
    | some (path, cs) =>
      match readValue fuel depth (skipBlank cs) with
      | none => none
      | some (v, cs) =>
        if isFree path read then
          match skipBlank cs with
          | ',' :: cs => readEntries fuel depth ((path, v) :: read) cs
          | '\x7d' :: cs => some (.table ((path, v) :: read).reverse, cs)
          | _ => none
        else none

end

end Toml
end LinearRegex
