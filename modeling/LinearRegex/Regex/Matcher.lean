import LinearRegex.Regex.Basic

/-!
# Going through the matches

A matcher finds the matches of a regular expression in a text, one after the other.  It keeps a
cursor, where the next match is looked for, and what the last search has found.
-/

namespace LinearRegex

structure Matcher where
  regex : Regex
  /-- The bytes of the text. -/
  haystack : ByteArray
  /-- Where the next match is looked for; `none` if there is no other. -/
  cursor? : Option Nat := some 0
  /-- What the last search has found. -/
  captures? : Option Captures := none
  cache : Cache := {}

/-- A matcher for the matches in `text`. -/
def Regex.matcher (r : Regex) (text : String) : Matcher where
  regex := r
  haystack := text.toUTF8

namespace Matcher

/-- Searches, and keeps what is found. -/
def search (m : Matcher) (input : Input) : Option Span × Matcher :=
  let (captures?, cache) := Search.search m.regex.program input m.cache
  (captures?.map (·.span), { m with captures?, cache })

/-- Where to look for the match that follows the one with the given span: at its end, or at the
next character if it is empty. -/
def cursorAfter? (h : ByteArray) : Option Span → Option Nat
  | some span =>
    if span.isEmpty then (Utf8.decodeAt? h span.stop).map (span.stop + ·.utf8Size)
    else some span.stop
  | none => none

/-- Finds the next match. -/
def find (m : Matcher) : Option Span × Matcher :=
  match m.cursor? with
  | none => (none, m)
  | some start =>
    let (span?, m) := m.search { haystack := m.haystack, start }
    (span?, { m with cursor? := cursorAfter? m.haystack span? })

/-- The matcher as it was at first. -/
def reset (m : Matcher) : Matcher :=
  { m with cursor? := some 0, captures? := none, cache := {} }

/-- A matcher for the matches in another text. -/
def resetWith (m : Matcher) (text : String) : Matcher :=
  { m.reset with haystack := text.toUTF8 }

/-- Starts anew, and finds the first match from `start` on. -/
def findFrom (m : Matcher) (start : Nat) : Option Span × Matcher :=
  if m.haystack.size < start then (none, { m.reset with cursor? := none })
  else find { m.reset with cursor? := some start }

/-- Whether there is a match that is all of the text. -/
def isFullMatch (m : Matcher) : Bool × Matcher :=
  let (span?, m) :=
    m.search { haystack := m.haystack, anchoredStart := true, anchoredEnd := true }
  (span?.isSome, m)

/-- Whether there is a match at the start of the text. -/
def isMatchAtStart (m : Matcher) : Bool × Matcher :=
  let (span?, m) := m.search { haystack := m.haystack, anchoredStart := true }
  (span?.isSome, m)

/-- The start of what the last search has found. -/
def start? (m : Matcher) : Option Nat :=
  m.captures?.map (·.span.start)

/-- The end of what the last search has found. -/
def stop? (m : Matcher) : Option Nat :=
  m.captures?.map (·.span.stop)

/-- The span of group `i` in what the last search has found. -/
def groupSpan? (m : Matcher) (i : Nat) : Option Span :=
  m.captures?.bind (·.get? i)

/-- The text of group `i` in what the last search has found. -/
def group? (m : Matcher) (i : Nat) : Option String :=
  (m.groupSpan? i).bind fun span => Utf8.slice? m.haystack span.start span.stop

/-- The text of the group with the given name. -/
def groupNamed? (m : Matcher) (name : String) : Option String :=
  (m.regex.program.groupIndex? name).bind m.group?

/-- What the next `n` searches find, up to the first that finds nothing. -/
def take (m : Matcher) : Nat → List Captures
  | 0 => []
  | n + 1 =>
    match m.find with
    | (some _, m) => m.captures?.toList ++ m.take n
    | (none, _) => []

end Matcher

/-- The spans of all matches in `text`.  Every match but the last moves the cursor, so there are not
more than offsets. -/
def Regex.spans (r : Regex) (text : String) : List Span :=
  ((r.matcher text).take (text.utf8ByteSize + 1)).map (·.span)

end LinearRegex
