import LinearRegex.Command.Invocation
import LinearRegex.Config.Basic
import LinearRegex.Expr.Drawing
import LinearRegex.Regex.Quote
import LinearRegex.Regex.Split
import LinearRegex.Report.Basic

/-!
# What commands print

Every command turns its operands, the configuration and the files it names into text for the
standard output, text for the standard error, and an exit code.
-/

namespace LinearRegex

/-- What a run of the program leaves. -/
structure Output where
  stdout : String := ""
  stderr : String := ""
  code : Nat := 0
deriving DecidableEq

/-- The reasons for which a file cannot be read. -/
inductive ReadError where
  | missing
  /-- The path goes on behind a file. -/
  | notDirectory
  | isDirectory
  | nameTooLong
  /-- There is a file, but its contents are out of reach. -/
  | failed (reason : String)
deriving DecidableEq

/-- The reason in words. -/
def ReadError.message : ReadError → String
  | missing => "No such file or directory (os error 2)"
  | notDirectory => "Not a directory (os error 20)"
  | isDirectory => "Is a directory (os error 21)"
  | nameTooLong => "File name too long (os error 36)"
  | failed reason => reason

/-- The path leads to something, even if that cannot be read. -/
def ReadError.isFound : ReadError → Bool
  | isDirectory => true
  | failed _ => true
  | _ => false

/-- What a run of the program can see. -/
structure World where
  stdin : ByteArray
  /-- The contents of the file at a path. -/
  read : String → Except ReadError ByteArray
  /-- The configuration file in the home directory. -/
  homeConfig? : Option ByteArray

namespace Command

/-- Ends with an error. -/
def fail (message : String) : Output where
  stderr := "error: " ++ message ++ "\n"
  code := 1

/-- The options of a pattern, with those of the configuration added. -/
def flags (c : Config) (o : PatternOptions) : Flags where
  ignoreCase := c.ignoreCase || o.ignoreCase
  dotAll := c.dotAll || o.dotAll
  multiLine := c.multiLine || o.multiLine
  longest := c.longest || o.longest

/-- Ends with a report of a fault in a pattern. -/
def refuse (pattern : String) (e : SyntaxError) : Output :=
  let output := fail ("invalid pattern `" ++ pattern ++ "`")
  { output with stderr := Report.ofError pattern e ++ "\n" ++ output.stderr }

/-- Builds a pattern and goes on with it. -/
def withRegex (c : Config) (o : PatternOptions) (pattern : String) (next : Regex → Output) :
    Output :=
  match Regex.build (flags c o) { size := c.sizeLimit, nest := c.nestLimit } pattern with
  | .ok r => next r
  | .error (.malformed e) => refuse pattern e
  | .error e => fail e.message

/-- The spans of the matches in a haystack, at most `fuel` of them.  Behind an empty match the
search goes on at the next byte. -/
def spansFrom (r : Regex) (h : ByteArray) (fuel start : Nat) (cache : Cache) : List Span :=
  match fuel with
  | 0 => []
  | fuel + 1 =>
    match Search.search r.program { haystack := h, start, wantsGroups := false } cache with
    | (none, _) => []
    | (some captures, cache) =>
      let span := captures.span
      span :: spansFrom r h fuel (if span.isEmpty then span.stop + 1 else span.stop) cache

/-- The spans of all matches in a haystack.  The search advances by a byte at least. -/
def spans (r : Regex) (h : ByteArray) : List Span :=
  spansFrom r h (h.size + 1) 0 {}

/-- A text with at most `limit` characters, and dots in place of the others. -/
def cut (limit : Nat) (text : String) : String :=
  let cs := text.toList
  if limit < cs.length then String.ofList (cs.take limit) ++ "..." else text

/-- The line about a match. -/
def matchLine (c : Config) (onlyMatching : Bool) (h : ByteArray) (span : Span) : String :=
  let text := Text.escaped (Utf8.lossy (h.extract span.start span.stop))
  let text := cut c.maxMatchLength text
  if onlyMatching then text
  else toString span.start ++ ".." ++ toString span.stop ++ ": " ++ text

/-- The lines about the matches in a haystack. -/
def matchLines (c : Config) (count onlyMatching : Bool) (r : Regex) (h : ByteArray) :
    List String :=
  let found := spans r h
  if count then [toString found.length] else found.map (matchLine c onlyMatching h)

/-- Lines, each of them with a newline at its end. -/
def unlines (lines : List String) : String :=
  String.join (lines.map (· ++ "\n"))

/-- Searches the files, up to the first that cannot be read. -/
def searchFiles (w : World) (lines : ByteArray → List String) (out : String) :
    List String → Output
  | [] => { stdout := out }
  | path :: paths =>
    match w.read path with
    | .ok h =>
      let found := (lines h).map fun line => path ++ ":" ++ line
      searchFiles w lines (out ++ unlines found) paths
    | .error reason =>
      { fail ("can not read `" ++ path ++ "`: " ++ reason.message) with stdout := out }

/-- The lines about a program: its instructions, a blank line, and what is known of it. -/
def programLines (p : Program) : List String :=
  p.listing ++
    ["", "instructions: " ++ toString p.size, "groups: " ++ toString p.groupCount,
      "one-pass: " ++ toString p.onePass?.isSome, "anchored: " ++ toString p.anchored] ++
    p.literalPrefix?.toList.map fun lit =>
      "prefix: " ++ Text.quoted (Utf8.lossy ⟨lit.bytes.toArray⟩) ++
        if lit.complete then " (complete)" else ""

/-- Carries out a command. -/
def run (w : World) (c : Config) : Command → Output
  | search o count onlyMatching pattern files =>
    withRegex c o pattern fun r =>
      let lines := matchLines c count onlyMatching r
      if files.isEmpty then { stdout := unlines (lines w.stdin) }
      else searchFiles w lines "" files
  | split o limit pattern text =>
    withRegex c o pattern fun r =>
      { stdout := unlines ((r.splitn text limit).map Text.quoted) }
  | quote text => { stdout := unlines [Regex.quote text] }
  | showExpr o pattern =>
    match Expr.parse (ParserOptions.ofFlags (flags c o) c.nestLimit) pattern with
    | .ok e => { stdout := unlines e.drawing }
    | .error e => refuse pattern e
  | showProgram o pattern =>
    withRegex c o pattern fun r => { stdout := unlines (programLines r.program) }

/-- Ends with a complaint about the arguments. -/
def misuse (e : UsageError) : Output where
  stderr := "error: " ++ e.message ++ "\n"
  code := 2

end Command

/-- The configuration in the contents of a file. -/
def Config.ofBytes? (contents : ByteArray) : Option Config :=
  (String.fromUTF8? contents).bind ofText?

namespace Invocation

/-- Carries out a command under its configuration.  A file that is named for it must exist and be
valid; the one in the home directory counts only if it is. -/
def run (w : World) (i : Invocation) : Output :=
  match i.config? with
  | none => i.command.run w ((w.homeConfig?.bind Config.ofBytes?).getD {})
  | some path =>
    match w.read path with
    | .error reason =>
      if reason.isFound then refuseConfig path reason.message
      else Command.misuse (.invalidValue "config" path)
    | .ok contents =>
      match Config.ofBytes? contents with
      | some c => i.command.run w c
      | none => refuseConfig path "no valid configuration"
where
  /-- Ends with an error about a configuration file. -/
  refuseConfig (path reason : String) : Output :=
    Command.fail ("invalid config file `" ++ path ++ "`: " ++ reason)

end Invocation

/-- Runs the program. -/
def runProgram (w : World) (args : List String) : Output :=
  match Invocation.ofArgs args with
  | .ok i => i.run w
  | .error e => Command.misuse e

end LinearRegex
