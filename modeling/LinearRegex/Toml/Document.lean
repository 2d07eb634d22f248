import LinearRegex.Toml.Value

/-!
# Documents

A TOML document is a list of statements: the headers of tables, and keys with values.  What the
statements set is left to the reader of the document.
-/

namespace LinearRegex
namespace Toml

inductive Statement where
  /-- `[a.b]`: the statements that follow are about this table. -/
  | header (path : List String)
  /-- `[[a.b]]`: the statements that follow are about a new table in this array. -/
  | itemHeader (path : List String)
  /-- `a.b = value` -/
  | entry (path : List String) (value : Value)

/-- Reads a statement, and the rest of its last line, in at most `fuel` steps. -/
def readStatement (fuel : Nat) (cs : List Char) : Option (Statement × List Char) :=
  match cs with
  | '[' :: '[' :: cs =>
    match readPath cs with
    | some (path, ']' :: ']' :: cs) => (skipLine cs).map (.itemHeader path, ·)
    | _ => none
  | '[' :: cs =>
    match readPath cs with
    | some (path, ']' :: cs) => (skipLine cs).map (.header path, ·)
    | _ => none
  | cs =>
    match readName cs with
    | some (path, cs) =>
      match readValue fuel (depthLimit - 1) (skipBlank cs) with
      | some (v, cs) => (skipLine cs).map (.entry path v, ·)
      | none => none
    | none => none

/-- Reads the statements that follow those in `read`, with the lines between them, in at most `fuel`
steps each. -/
def readStatements (fuel : Nat) (read : List Statement) (cs : List Char) :
    Option (List Statement) :=
  match fuel with
  | 0 => none
  | fuel + 1 =>
    match skipBlank cs with
    | [] => some read.reverse
    | cs =>
      match skipLine cs with
      | some cs => readStatements fuel read cs
      | none =>
        match readStatement fuel cs with
        | some (statement, cs) => readStatements fuel (statement :: read) cs
        | none => none

/-- The statements of a document.  A byte order mark in front is passed over.  Every step of the
reader takes a character, but for those that start a value or an item. -/
def statements? (text : String) : Option (List Statement) :=
  let cs :=
    match text.toList with
    | '\ufeff' :: cs => cs
    | cs => cs
  readStatements (3 * cs.length + 3) [] cs

end Toml
end LinearRegex
