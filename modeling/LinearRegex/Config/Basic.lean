import LinearRegex.Regex.Basic
import LinearRegex.Toml.Document

/-!
# Configuration

A configuration sets what the options of a command leave open.  It has two sections, `regex` and
`search`.  Whatever a document does not mention keeps its default.  A section can also be written as
an array, which sets all of its keys in their order.
-/

namespace LinearRegex

structure Config where
  ignoreCase : Bool := false
  dotAll : Bool := false
  multiLine : Bool := false
  longest : Bool := false
  sizeLimit : Nat := Program.defaultSizeLimit
  nestLimit : Nat := defaultNestLimit
  /-- Matches with more characters are cut when they are printed. -/
  maxMatchLength : Nat := 120
deriving DecidableEq

namespace Config

/-- A count that is less than `limit`. -/
def count? (limit : Nat) (n : Int) : Option Nat :=
  if 0 ≤ n ∧ n < limit then some n.toNat else none

/-- Sets a key of a section. -/
def set? (c : Config) (table key : String) (value : Toml.Value) : Option Config :=
  match table, key, value with
  | "regex", "case_insensitive", .bool b => some { c with ignoreCase := b }
  | "regex", "dot_all", .bool b => some { c with dotAll := b }
  | "regex", "multi_line", .bool b => some { c with multiLine := b }
  | "regex", "longest_match", .bool b => some { c with longest := b }
  | "regex", "size_limit", .integer n =>
    (count? (Nat.pow 2 64) n).map ({ c with sizeLimit := · })
  | "regex", "nest_limit", .integer n =>
    (count? (Nat.pow 2 32) n).map ({ c with nestLimit := · })
  | "search", "max_match_len", .integer n =>
    (count? (Nat.pow 2 64) n).map ({ c with maxMatchLength := · })
  | _, _, _ => none

/-- The names of the sections. -/
def sections : List String :=
  ["regex", "search"]

/-- The keys of a section, in their order. -/
def keysOf (table : String) : List String :=
  if table = "regex" then
    ["case_insensitive", "dot_all", "multi_line", "longest_match", "size_limit", "nest_limit"]
  else if table = "search" then ["max_match_len"]
  else []

/-- How a section has been written. -/
inductive Form where
  /-- Under a header. -/
  | header
  /-- By keys with the name of the section in front. -/
  | dotted
  /-- As a table between braces, or as an array. -/
  | inline
deriving DecidableEq

/-- A configuration that is being read. -/
structure Reading where
  config : Config := {}
  /-- The section whose header came last. -/
  current? : Option String := none
  /-- The sections there have been, and their forms. -/
  forms : List (String × Form) := []
  /-- The sections and keys that have been set. -/
  keys : List (String × String) := []

namespace Reading

/-- Starts a section.  Only a section written by keys can be gone on with. -/
def openSection? (r : Reading) (name : String) (form : Form) : Option Reading :=
  if name ∈ sections then
    match r.forms.lookup name with
    | none => some { r with forms := (name, form) :: r.forms }
    | some .dotted => if form = .dotted then some r else none
    | some _ => none
  else none

/-- Sets a key of a section, which must not have been set. -/
def set? (r : Reading) (table key : String) (value : Toml.Value) : Option Reading :=
  if (table, key) ∈ r.keys then none
  else
    (r.config.set? table key value).map fun config =>
      { r with config, keys := (table, key) :: r.keys }

/-- Sets the keys of a table between braces. -/
def setAll? (table : String) (entries : List (List String × Toml.Value)) (r : Reading) :
    Option Reading :=
  entries.foldlM
    (fun r (path, value) =>
      match path with
      | [key] => r.set? table key value
      | _ => none)
    r

/-- Sets all keys of a section to the items of an array.  Items that are left over are ignored. -/
def setInOrder? (table : String) (items : List Toml.Value) (r : Reading) : Option Reading :=
  let keys := keysOf table
  if items.length < keys.length then none
  else (keys.zip items).foldlM (fun r (key, value) => r.set? table key value) r

/-- Reads a statement. -/
def statement? (r : Reading) : Toml.Statement → Option Reading
  | .header [name] =>
    (r.openSection? name .header).map ({ · with current? := some name })
  | .header _ => none
  | .itemHeader _ => none
  | .entry path value =>
    match r.current?, path, value with
    | some name, [key], value => r.set? name key value
    | none, [name, key], value => do (← r.openSection? name .dotted).set? name key value
    | none, [name], .table entries => do setAll? name entries (← r.openSection? name .inline)
    | none, [name], .array items => do setInOrder? name items (← r.openSection? name .inline)
    | _, _, _ => none

end Reading

/-- The configuration that a document describes. -/
def ofText? (text : String) : Option Config := do
  return (← (← Toml.statements? text).foldlM Reading.statement? {}).config

end Config
end LinearRegex
