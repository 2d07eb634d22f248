/-!
# Arguments

The arguments of a command are options and operands.  An option has a long name, as in `--limit`,
and may have a letter, as in `-l`.  Letters can share a dash.  The value of an option stands in the
next argument, or behind `=`, or right behind the letter.  Behind `--` there are only operands.
-/

namespace LinearRegex

/-- An option of a command. -/
structure OptionSpec (α : Type) where
  id : α
  letter? : Option Char
  name : String
  takesValue : Bool
  /-- The value may be a negative number, although that looks like an option. -/
  allowsNegative : Bool := false

/-- What is wrong with arguments. -/
inductive UsageError where
  | unknownOption (name : String)
  | repeatedOption (name : String)
  | missingValue (name : String)
  | unexpectedValue (name : String)
  | invalidValue (name value : String)
  | unknownCommand (name : String)
  | missingCommand
  | missingOperand (name : String)
  | unexpectedOperand (value : String)
deriving DecidableEq

/-- The complaint in words. -/
def UsageError.message : UsageError → String
  | unknownOption name => "unexpected option " ++ name
  | repeatedOption name => "option " ++ name ++ " is given more than once"
  | missingValue name => "option " ++ name ++ " needs a value"
  | unexpectedValue name => "option " ++ name ++ " takes no value"
  | invalidValue name value => "invalid value " ++ value ++ " for " ++ name
  | unknownCommand name => "unknown command " ++ name
  | missingCommand => "a command is needed"
  | missingOperand name => "missing operand " ++ name
  | unexpectedOperand value => "unexpected operand " ++ value

/-- The arguments of a command, read. -/
structure Arguments (α : Type) where
  /-- The options that are given, with their values. -/
  options : List (α × String) := []
  operands : List String := []
  /-- The name of a subcommand, and its arguments. -/
  command? : Option (String × List String) := none

namespace Arguments

variable {α : Type} [DecidableEq α]

/-- The value of an option. -/
def value? (a : Arguments α) (id : α) : Option String :=
  a.options.lookup id

/-- The option is given. -/
def has (a : Arguments α) (id : α) : Bool :=
  (a.value? id).isSome

/-- Adds an option with its value. -/
def addOption (a : Arguments α) (o : OptionSpec α) (value : String) :
    Except UsageError (Arguments α) :=
  if a.has o.id then .error (.repeatedOption o.name)
  else .ok { a with options := (o.id, value) :: a.options }

/-- An argument that looks like an option. -/
def isDashed (arg : String) : Bool :=
  arg.startsWith "-" && arg ≠ "-"

/-- A minus sign and digits. -/
def isNegative (arg : String) : Bool :=
  match arg.toList with
  | '-' :: digits => digits ≠ [] && digits.all Char.isDigit
  | _ => false

/-- What an argument asks for. -/
inductive Reading (α : Type) where
  | arguments (a : Arguments α)
  /-- The next argument is the value of an option. -/
  | expects (a : Arguments α) (o : OptionSpec α)

/-- Reads an option by its long name, with the value behind `=` if there is one. -/
def readLong (specs : List (OptionSpec α)) (a : Arguments α) (name : String)
    (value? : Option String) : Except UsageError (Reading α) :=
  match specs.find? (·.name == name) with
  | none => .error (.unknownOption name)
  | some o =>
    match o.takesValue, value? with
    | true, some value => (a.addOption o value).map .arguments
    | true, none => .ok (.expects a o)
    | false, some _ => .error (.unexpectedValue name)
    | false, none => (a.addOption o "").map .arguments

/-- The value right behind a letter, with or without `=`. -/
def attachedValue (cs : List Char) : String :=
  match cs with
  | '=' :: cs => String.ofList cs
  | cs => String.ofList cs

/-- Reads options by their letters. -/
def readLetters (specs : List (OptionSpec α)) (a : Arguments α) :
    List Char → Except UsageError (Reading α)
  | [] => .ok (.arguments a)
  | c :: cs =>
    match specs.find? (·.letter? == some c) with
    | none => .error (.unknownOption c.toString)
    | some o =>
      if o.takesValue then
        if cs.isEmpty then .ok (.expects a o)
        else (a.addOption o (attachedValue cs)).map .arguments
      else
        match a.addOption o "" with
        | .ok a => readLetters specs a cs
        | .error e => .error e

/-- Splits `name=value`. -/
def splitAtEquals (cs : List Char) : String × Option String :=
  match cs.span (· ≠ '=') with
  | (name, '=' :: value) => (String.ofList name, some (String.ofList value))
  | (name, _) => (String.ofList name, none)

/-- Reads an argument. -/
def readArgument (specs : List (OptionSpec α)) (a : Arguments α) (arg : String) :
    Except UsageError (Reading α) :=
  match arg.toList with
  | '-' :: '-' :: cs => readLong specs a (splitAtEquals cs).1 (splitAtEquals cs).2
  | '-' :: c :: cs => readLetters specs a (c :: cs)
  | _ => .ok (.arguments { a with operands := a.operands ++ [arg] })

/-- Reads arguments up to the name of a subcommand.  `expected?` is the option whose value comes
next. -/
def read (specs : List (OptionSpec α)) (commands : List String) (a : Arguments α)
    (expected? : Option (OptionSpec α)) : List String → Except UsageError (Arguments α)
  | [] =>
    match expected? with
    | some o => .error (.missingValue o.name)
    | none => .ok a
  | arg :: rest =>
    match expected? with
    | some o =>
      if isDashed arg && !(o.allowsNegative && isNegative arg) then
        .error (.missingValue o.name)
      else
        match a.addOption o arg with
        | .ok a => read specs commands a none rest
        | .error e => .error e
    | none =>
      if arg = "--" then .ok { a with operands := a.operands ++ rest }
      else if commands.contains arg then .ok { a with command? := some (arg, rest) }
      else
        match readArgument specs a arg with
        | .ok (.arguments a) => read specs commands a none rest
        | .ok (.expects a o) => read specs commands a (some o) rest
        | .error e => .error e

end Arguments
end LinearRegex
