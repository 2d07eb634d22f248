/-!
# Errors in patterns

What can be wrong with a pattern, and where.
-/

namespace LinearRegex

/-- The causes for which a pattern is refused. -/
inductive SyntaxErrorKind where
  | duplicateCaptureName
  | invalidCharRange
  | invalidEscape
  | invalidNamedCapture
  | invalidPerlOp
  | invalidRepeatOp
  | invalidRepeatSize
  | missingBracket
  | missingParen
  | missingRepeatArgument
  | nestingDepth
  | trailingBackslash
  | unexpectedParen
deriving DecidableEq

/-- The cause in words. -/
def SyntaxErrorKind.message : SyntaxErrorKind → String
  | duplicateCaptureName => "duplicate capture group name"
  | invalidCharRange => "invalid character class range"
  | invalidEscape => "invalid escape sequence"
  | invalidNamedCapture => "invalid named capture"
  | invalidPerlOp => "invalid or unsupported Perl syntax"
  | invalidRepeatOp => "invalid nested repetition operator"
  | invalidRepeatSize => "invalid repeat count"
  | missingBracket => "missing closing ]"
  | missingParen => "missing closing )"
  | missingRepeatArgument => "missing argument to repetition operator"
  | nestingDepth => "expression nests too deeply"
  | trailingBackslash => "trailing backslash at end of expression"
  | unexpectedParen => "unexpected )"

/-- A cause and the byte offsets, in the pattern, of what it is about. -/
structure Fault where
  kind : SyntaxErrorKind
  start : Nat
  stop : Nat
deriving DecidableEq

/-- A fault and the text of the pattern that it is about. -/
structure SyntaxError extends Fault where
  fragment : String
deriving DecidableEq

/-- The error in words. -/
def SyntaxError.message (e : SyntaxError) : String :=
  "error parsing regexp: " ++ e.kind.message ++ ": `" ++ e.fragment ++ "`"

end LinearRegex
