import LinearRegex.Expr.Parser
import LinearRegex.Regex.Flags
import LinearRegex.Search.Engine

/-!
# Regular expressions

A pattern and flags are built into a regular expression, which holds the program that it is
searched with.  This module also holds the searches that need nothing but a haystack.
-/

namespace LinearRegex

/-- The reasons for which a regular expression cannot be built. -/
inductive RegexError where
  /-- Some bit is not that of a flag. -/
  | invalidFlags (bits : Nat)
  | malformed (e : SyntaxError)
  /-- The program needs more instructions than allowed. -/
  | tooLarge (limit : Nat)
deriving DecidableEq

/-- The reason in words. -/
def RegexError.message : RegexError → String
  | invalidFlags bits => "invalid flags: 0x" ++ Text.hex bits 1
  | malformed e => e.message
  | tooLarge limit => "regexp too large: program exceeds " ++ toString limit ++ " instructions"

structure Regex where
  pattern : String
  flags : Flags
  program : Program

namespace Regex

/-- Limits on what is built. -/
structure Limits where
  /-- The most instructions that the program may have. -/
  size : Nat := Program.defaultSizeLimit
  /-- How deep groups and classes may nest. -/
  nest : Nat := defaultNestLimit

/-- Builds the program of a pattern. -/
def build (flags : Flags) (limits : Limits) (pattern : String) : Except RegexError Regex :=
  match Expr.parse (ParserOptions.ofFlags flags limits.nest) pattern with
  | .error e => .error (.malformed e)
  | .ok e =>
    match Program.compile flags.longest limits.size e with
    | .error e => .error (.tooLarge e.limit)
    | .ok program => .ok ⟨pattern, flags, program⟩

/-- The flags with the given bits. -/
def flagsOfBits (bits : Nat) : Except RegexError Flags :=
  match Flags.ofBits? bits with
  | some flags => .ok flags
  | none => .error (.invalidFlags bits)

/-- Two regular expressions are equal if their patterns and flags are. -/
instance : BEq Regex where
  beq a b := a.flags == b.flags && a.pattern == b.pattern

/-- Equal regular expressions have the same hash. -/
instance : Hashable Regex where
  hash r := mixHash (hash r.pattern) (hash r.flags.bits)

def groupCount (r : Regex) : Nat :=
  r.program.groupCount

/-- A search with an empty cache. -/
def search (r : Regex) (input : Input) : Option Captures :=
  (Search.search r.program input {}).1

/-- The regular expression matches somewhere in `text`. -/
def isMatch (r : Regex) (text : String) : Bool :=
  (r.search { haystack := text.toUTF8, wantsGroups := false }).isSome

/-- The regular expression matches all of `text`. -/
def isFullMatch (r : Regex) (text : String) : Bool :=
  (r.search
    { haystack := text.toUTF8, anchoredStart := true, anchoredEnd := true
      wantsGroups := false }).isSome

/-- The span of the first match that starts at `start` or behind it. -/
def findFrom? (r : Regex) (text : String) (start : Nat) : Option Span :=
  (r.search { haystack := text.toUTF8, start, wantsGroups := false }).map (·.span)

/-- The span of the first match. -/
def find? (r : Regex) (text : String) : Option Span :=
  r.findFrom? text 0

/-- The groups of the first match. -/
def captures? (r : Regex) (text : String) : Option Captures :=
  r.search { haystack := text.toUTF8 }

/-- The regular expression with its flags by name. -/
def description (r : Regex) : String :=
  "Regex \x7b pattern: " ++ Text.quoted r.pattern ++ ", flags: Flags(" ++ r.flags.text ++ ") \x7d"

end Regex
end LinearRegex
