/-!
# Modes and options

What a pattern means depends on modes, which it can switch as it goes, and on options, which are
fixed before it is read.
-/

namespace LinearRegex

/-- The modes that a pattern switches with `(?imsU)` and `(?imsU-imsU:...)`. -/
structure Modes where
  /-- `i`: letters match in either case. -/
  ignoreCase : Bool := false
  /-- `s`: a dot also matches a newline. -/
  dotAll : Bool := false
  /-- `m`: `^` and `$` match at the ends of every line. -/
  multiLine : Bool := false
  /-- `U`: `x*` and `x*?` change roles, and likewise for the other quantifiers. -/
  swapGreed : Bool := false
deriving DecidableEq

/-- The modes after switching the one with the given letter. -/
def Modes.switch? (m : Modes) (letter : Char) (on : Bool) : Option Modes :=
  match letter with
  | 'i' => some { m with ignoreCase := on }
  | 's' => some { m with dotAll := on }
  | 'm' => some { m with multiLine := on }
  | 'U' => some { m with swapGreed := on }
  | _ => none

/-- How deep groups and classes nest unless a caller says otherwise. -/
def defaultNestLimit : Nat := 1000

/-- What is fixed before a pattern is read. -/
structure ParserOptions where
  /-- The modes at the start of the pattern. -/
  modes : Modes := {}
  /-- `\p` and `\P` name classes; otherwise they are no escapes. -/
  unicodeClasses : Bool := true
  /-- `\b` and `\B` go by the Unicode word characters instead of the ASCII ones. -/
  unicodeWordBoundary : Bool := false
  /-- How deep groups and classes may nest. -/
  nestLimit : Nat := defaultNestLimit

end LinearRegex
