import LinearRegex.Json.Reading
import LinearRegex.Regex.Basic

/-!
# Regular expressions as data

A regular expression is written as JSON, with its pattern and the bits of its flags.  The program is
built anew when it is read, within the limits that apply to everyone.
-/

namespace LinearRegex

/-- What is written of a regular expression. -/
structure Serialized where
  pattern : String
  flagBits : Nat
deriving DecidableEq

/-- The reasons for which a text is not read as a regular expression. -/
inductive SerializedError where
  /-- The text is not JSON. -/
  | notJson
  /-- The JSON value is not of the form expected. -/
  | wrongForm
  | invalid (e : RegexError)
deriving DecidableEq

def Regex.serialized (r : Regex) : Serialized where
  pattern := r.pattern
  flagBits := r.flags.bits

namespace Serialized

/-- The regular expression that was written. -/
def toRegex (s : Serialized) : Except RegexError Regex := do
  Regex.build (← Regex.flagsOfBits s.flagBits) {} s.pattern

/-- The JSON text. -/
def text (s : Serialized) : String :=
  "\x7b\"pattern\":" ++ Json.stringText s.pattern ++ ",\"flags\":" ++ toString s.flagBits ++ "\x7d"

/-- Reads the bits of flags, which are a word of 32 bits. -/
def readFlagBits : Json.Reader Nat :=
  Json.readNatural (Nat.pow 2 32)

/-! ### Arrays -/

/-- Passes over what stands in front of an item.  There must be one. -/
def skipToItem (isFirst : Bool) (cs : List Char) : Except Json.Fault (List Char) :=
  match Json.skipBlank cs with
  | [] => .error .malformed
  | ']' :: _ => .error .mismatch
  | c :: cs =>
    if isFirst then .ok (c :: cs)
    else if c = ',' then
      match Json.skipBlank cs with
      | ']' :: _ => .error .malformed
      | cs => .ok cs
    else .error .malformed

/-- Reads what follows the bracket of an array: a pattern and flags, and nothing else. -/
def readItems : Json.Reader Serialized := fun cs => do
  let (pattern, cs) ← Json.readText (← skipToItem true cs)
  let (flagBits, cs) ← readFlagBits (← skipToItem false cs)
  match Json.skipBlank cs with
  | ']' :: cs => return (⟨pattern, flagBits⟩, cs)
  | _ => throw .malformed

/-! ### Objects -/

/-- The members of an object that have been read. -/
structure Draft where
  pattern? : Option String := none
  flagBits? : Option Nat := none

/-- What the members say, if none is missing. -/
def Draft.complete (d : Draft) : Except Json.Fault Serialized :=
  match d.pattern?, d.flagBits? with
  | some pattern, some flagBits => .ok ⟨pattern, flagBits⟩
  | _, _ => .error .mismatch

/-- Reads the name of the next member, if there is one, or the brace behind the last. -/
def readName (isFirst : Bool) : Json.Reader (Option String) := fun cs =>
  let name (cs : List Char) :=
    match cs with
    | '"' :: cs => Json.orMalformed ((Json.readString [] cs).map fun (name, cs) => (some name, cs))
    | _ => .error .malformed
  match Json.skipBlank cs with
  | '\x7d' :: cs => .ok (none, cs)
  | ',' :: cs => if isFirst then .error .malformed else name (Json.skipBlank cs)
  | cs => if isFirst then name cs else .error .malformed

/-- Reads a member with the given name.  A name that has been there is found fault with before its
value is read, and the values of other members are passed over in at most `fuel` steps. -/
def readMember (fuel : Nat) (d : Draft) (name : String) : Json.Reader Draft := fun cs => do
  if name = "pattern" then
    if d.pattern?.isSome then throw .mismatch
    let (pattern, cs) ← Json.readText (← Json.orMalformed (Json.skipColon cs))
    return ({ d with pattern? := some pattern }, cs)
  else if name = "flags" then
    if d.flagBits?.isSome then throw .mismatch
    let (flagBits, cs) ← readFlagBits (← Json.orMalformed (Json.skipColon cs))
    return ({ d with flagBits? := some flagBits }, cs)
  else
    return (d, ← Json.skipValue fuel (← Json.orMalformed (Json.skipColon cs)))

/-- Reads the members that follow those in the draft.  Every member takes a character at least, so
`fuel` has to be larger than the number of characters. -/
def readMembers (fuel : Nat) (isFirst : Bool) (d : Draft) : Json.Reader Serialized := fun cs =>
  match fuel with
  | 0 => .error .malformed
  | fuel + 1 =>
    match readName isFirst cs with
    | .error e => .error e
    | .ok (none, cs) => d.complete.map (·, cs)
    | .ok (some name, cs) =>
      match readMember fuel d name cs with
      | .error e => .error e
      | .ok (d, cs) => readMembers fuel false d cs

/-- Reads a value: an object with one pattern and one number of flags, whatever else is in it, or an
array of the two. -/
def read : Json.Reader Serialized := fun cs =>
  match Json.skipBlank cs with
  | '[' :: cs => readItems cs
  | '\x7b' :: cs => readMembers (cs.length + 1) true {} cs
  | cs => .error (Json.otherKind cs)

end Serialized

/-- The error that a fault in a text amounts to. -/
def SerializedError.ofFault : Json.Fault → SerializedError
  | .malformed => .notJson
  | .mismatch => .wrongForm

/-- Reads a regular expression from JSON text.  It is built before the end of the text is looked
for. -/
def Regex.ofJsonText (text : String) : Except SerializedError Regex := do
  let (s, rest) ← (Serialized.read text.toList).mapError .ofFault
  let r ← s.toRegex.mapError .invalid
  if (Json.skipBlank rest).isEmpty then return r else throw .notJson

end LinearRegex
