import LinearRegex.Command.Output

/-!
# The program

Reads what a command needs, carries the command out, and writes what it prints.
-/

namespace LinearRegex
namespace Shell

/-- The reason for which a file could not be read. -/
def readError : IO.Error → ReadError
  | .noFileOrDirectory .. => .missing
  | .inappropriateType _ 20 _ => .notDirectory
  | .inappropriateType _ 21 _ => .isDirectory
  | .invalidArgument _ 36 _ => .nameTooLong
  | e => .failed (toString e)

/-- The contents of the file at a path. -/
def readPath (path : String) : IO (Except ReadError ByteArray) := do
  try
    return .ok (← IO.FS.readBinFile path)
  catch e => return .error (readError e)

/-- The configuration file in the home directory. -/
def readHomeConfig : IO (Option ByteArray) := do
  match ← IO.getEnv "HOME" with
  | some home =>
    if home.isEmpty then return none
    return (← readPath (home ++ "/.lre.toml")).toOption
  | none => return none

/-- What the command can see. -/
def readWorld (i : Invocation) : IO World := do
  let mut contents := []
  for path in i.config?.toList ++ i.files do
    contents := (path, ← readPath path) :: contents
  let found := contents
  let stdin ← if i.readsStdin then (← IO.getStdin).readBinToEnd else pure ByteArray.empty
  return {
    stdin
    read := fun path => (found.lookup path).getD (.error .missing)
    homeConfig? := ← readHomeConfig }

/-- Writes what the program has printed. -/
def write (o : Output) : IO UInt32 := do
  (← IO.getStdout).putStr o.stdout
  (← IO.getStderr).putStr o.stderr
  return UInt32.ofNat o.code

end Shell
end LinearRegex

def main (args : List String) : IO UInt32 := do
  match LinearRegex.Invocation.ofArgs args with
  | .ok i => LinearRegex.Shell.write (i.run (← LinearRegex.Shell.readWorld i))
  | .error e => LinearRegex.Shell.write (LinearRegex.Command.misuse e)
