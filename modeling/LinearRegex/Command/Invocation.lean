import LinearRegex.Command.Arguments
import LinearRegex.Text.Digits

/-!
# Invocations

What the program can be asked to do, and the arguments that ask for it.
-/

namespace LinearRegex

/-- The options that say how a pattern is read and searched. -/
structure PatternOptions where
  ignoreCase : Bool := false
  dotAll : Bool := false
  multiLine : Bool := false
  longest : Bool := false
deriving DecidableEq

inductive Command where
  /-- Lists the matches in files, or in the standard input if there are none. -/
  | search (options : PatternOptions) (count onlyMatching : Bool) (pattern : String)
      (files : List String)
  /-- Splits a text at the matches. -/
  | split (options : PatternOptions) (limit : Int) (pattern text : String)
  /-- Prints the pattern that matches a text. -/
  | quote (text : String)
  /-- Draws the expression of a pattern. -/
  | showExpr (options : PatternOptions) (pattern : String)
  /-- Lists the program of a pattern. -/
  | showProgram (options : PatternOptions) (pattern : String)
deriving DecidableEq

/-- A command, and the configuration file that is named for it. -/
structure Invocation where
  config? : Option String
  command : Command
deriving DecidableEq

namespace Invocation

/-- The options of all commands. -/
inductive OptionId where
  | config
  | ignoreCase
  | dotAll
  | longest
  | multiLine
  | count
  | onlyMatching
  | limit
deriving DecidableEq

/-- The option in front of the command. -/
def globalOptions : List (OptionSpec OptionId) :=
  [⟨.config, some 'C', "config", true, false⟩]

/-- The options of the commands that take a pattern. -/
def patternOptions : List (OptionSpec OptionId) :=
  [⟨.ignoreCase, some 'i', "case-insensitive", false, false⟩,
    ⟨.dotAll, some 's', "dot-all", false, false⟩,
    ⟨.longest, none, "longest", false, false⟩,
    ⟨.multiLine, some 'm', "multi-line", false, false⟩]

def searchOptions : List (OptionSpec OptionId) :=
  [⟨.count, some 'c', "count", false, false⟩,
    ⟨.onlyMatching, some 'o', "only-matching", false, false⟩] ++ patternOptions

def splitOptions : List (OptionSpec OptionId) :=
  ⟨.limit, some 'l', "limit", true, true⟩ :: patternOptions

/-- The options of a pattern among the arguments. -/
def patternOptionsOf (a : Arguments OptionId) : PatternOptions where
  ignoreCase := a.has .ignoreCase
  dotAll := a.has .dotAll
  multiLine := a.has .multiLine
  longest := a.has .longest

/-- The value of decimal digits, if there are any. -/
def natural? (cs : List Char) : Option Nat :=
  if cs ≠ [] ∧ cs.all Char.isDigit then some (Text.digitsValue 10 cs) else none

/-- The number that a text stands for, with a sign or without. -/
def integer? (text : String) : Option Int :=
  match text.toList with
  | '-' :: digits => (natural? digits).map fun n => -(n : Int)
  | '+' :: digits => (natural? digits).map Int.ofNat
  | digits => (natural? digits).map Int.ofNat

/-- The value of `--limit`, which fits into 32 bits. -/
def limitOf (a : Arguments OptionId) : Except UsageError Int :=
  match a.value? .limit with
  | none => .ok 0
  | some text =>
    match integer? text with
    | some n =>
      if -Int.pow 2 31 ≤ n ∧ n < Int.pow 2 31 then .ok n else .error (.invalidValue "limit" text)
    | none => .error (.invalidValue "limit" text)

/-- The only operand. -/
def operand (name : String) : List String → Except UsageError String
  | [] => .error (.missingOperand name)
  | [value] => .ok value
  | _ :: value :: _ => .error (.unexpectedOperand value)

/-- Reads the arguments of a command that has no subcommands. -/
def readPlain (specs : List (OptionSpec OptionId)) (args : List String) :
    Except UsageError (Arguments OptionId) :=
  Arguments.read specs [] {} none args

def readSearch (args : List String) : Except UsageError Command := do
  let a ← readPlain searchOptions args
  match a.operands with
  | [] => throw (.missingOperand "PATTERN")
  | pattern :: files =>
    if files.contains "" then throw (.invalidValue "FILE" "")
    return .search (patternOptionsOf a) (a.has .count) (a.has .onlyMatching) pattern files

def readSplit (args : List String) : Except UsageError Command := do
  let a ← readPlain splitOptions args
  match a.operands with
  | [] => throw (.missingOperand "PATTERN")
  | pattern :: operands =>
    return .split (patternOptionsOf a) (← limitOf a) pattern (← operand "TEXT" operands)

def readQuote (args : List String) : Except UsageError Command := do
  let a ← readPlain [] args
  return .quote (← operand "TEXT" a.operands)

/-- Reads the arguments of a command that shows something about a pattern. -/
def readShow (shows : PatternOptions → String → Command) (args : List String) :
    Except UsageError Command := do
  let a ← readPlain patternOptions args
  return shows (patternOptionsOf a) (← operand "PATTERN" a.operands)

/-- The subcommand that the arguments go on with. -/
def subcommand (a : Arguments OptionId) : Except UsageError (String × List String) :=
  match a.operands, a.command? with
  | value :: _, _ => .error (.unknownCommand value)
  | [], some command => .ok command
  | [], none => .error .missingCommand

def readDebug (args : List String) : Except UsageError Command := do
  let a ← Arguments.read [] ["ast", "program"] {} none args
  let (name, args) ← subcommand a
  if name = "ast" then readShow .showExpr args else readShow .showProgram args

/-- Reads the arguments of the program. -/
def ofArgs (args : List String) : Except UsageError Invocation := do
  let a ← Arguments.read globalOptions ["search", "split", "quote", "debug"] {} none args
  let (name, args) ← subcommand a
  let command ←
    if name = "search" then readSearch args
    else if name = "split" then readSplit args
    else if name = "quote" then readQuote args
    else readDebug args
  return { config? := a.value? .config, command }

/-- The files that the command reads. -/
def files (i : Invocation) : List String :=
  match i.command with
  | .search _ _ _ _ files => files
  | _ => []

/-- The command reads the standard input. -/
def readsStdin (i : Invocation) : Bool :=
  match i.command with
  | .search _ _ _ _ files => files.isEmpty
  | _ => false

end Invocation
end LinearRegex
