import LinearRegex.Regex.Matcher

/-!
# Splitting a text

A text is split at the matches of a regular expression.  An empty match at the start of the text
does not count.  The number of pieces can be limited, and without a limit the empty pieces at the
end can be left out: they are only counted until a piece follows that is not empty.
-/

namespace LinearRegex
namespace Split

/-- The pieces so far, and what is left of the text. -/
structure State where
  pieces : Array String := #[]
  /-- The number of empty pieces that follow, if any other piece does. -/
  empties : Nat := 0
  /-- Where the rest of the text starts. -/
  last : Nat := 0

/-- The text between two offsets. -/
def piece (h : ByteArray) (start stop : Nat) : String :=
  (Utf8.slice? h start stop).getD ""

/-- Adds a piece behind the empty ones that were counted. -/
def State.add (s : State) (text : String) (last : Nat) : State where
  pieces := (s.pieces ++ Array.replicate s.empties "").push text
  last := last

/-- Splits at the given matches.  With a positive limit, one piece is kept free for the rest; with
the limit 0, empty pieces are counted instead of added. -/
def atSpans (h : ByteArray) (limit : Int) : List Span → State → State
  | [], s => s
  | m :: ms, s =>
    if s.last = 0 ∧ m.stop = 0 then atSpans h limit ms s
    else if 0 < limit ∧ (s.pieces.size : Int) = limit - 1 then s
    else if limit = 0 ∧ s.last = m.start then
      atSpans h limit ms { s with empties := s.empties + 1, last := m.stop }
    else atSpans h limit ms (s.add (piece h s.last m.start) m.stop)

/-- Adds the rest of the text.  With the limit 0, an empty rest is added only if there is nothing
else. -/
def State.finish (s : State) (h : ByteArray) (limit : Int) : List String :=
  let rest := piece h s.last h.size
  if limit = 0 then
    if s.last ≠ h.size then (s.add rest h.size).pieces.toList
    else if s.pieces.isEmpty then [rest] else s.pieces.toList
  else (s.add rest h.size).pieces.toList

end Split

/-- Splits a text into at most `limit` pieces if `limit` is positive, into all pieces if it is
negative, and into all but the empty ones at the end if it is 0. -/
def Regex.splitn (r : Regex) (text : String) (limit : Int) : List String :=
  (Split.atSpans text.toUTF8 limit (r.spans text) {}).finish text.toUTF8 limit

/-- Splits a text into all pieces but the empty ones at the end. -/
def Regex.split (r : Regex) (text : String) : List String :=
  r.splitn text 0

end LinearRegex
