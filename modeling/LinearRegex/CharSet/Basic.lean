/-!
# Sets of characters

A set of characters is kept as a list of ranges.  The sets built by `CharSet.ofRanges` are in
canonical form: their ranges ascend, and no two of them overlap or stand side by side.  Code points
decide what stands side by side, so the character before the surrogates and the one after them do
not, while a single range may span the surrogates.
-/

namespace LinearRegex

/-- The last character, U+10FFFF. -/
def lastChar : Char :=
  Char.ofNat 0x10ffff

/-- The characters from `lo` to `hi`, both included. -/
structure CharRange where
  lo : Char
  hi : Char
  lo_le_hi : lo ≤ hi
deriving DecidableEq

namespace CharRange

/-- The range of one character. -/
def single (c : Char) : CharRange where
  lo := c
  hi := c
  lo_le_hi := Char.le_refl c

/-- The range with the given ends, in whichever order they come. -/
def between (a b : Char) : CharRange :=
  if h : a ≤ b then ⟨a, b, h⟩ else ⟨b, a, (Char.le_total a b).resolve_left h⟩

/-- The range of all characters. -/
def full : CharRange :=
  between '\x00' lastChar

def contains (r : CharRange) (c : Char) : Bool :=
  r.lo ≤ c && c ≤ r.hi

/-- Two ranges overlap, or the code point after one is the first of the other. -/
def touches (r s : CharRange) : Bool :=
  max r.lo.toNat s.lo.toNat ≤ min r.hi.toNat s.hi.toNat + 1

/-- The least range that includes both. -/
def hull (r s : CharRange) : CharRange where
  lo := if r.lo ≤ s.lo then r.lo else s.lo
  hi := if r.hi ≤ s.hi then s.hi else r.hi
  lo_le_hi := by
    have hr := r.lo_le_hi
    have hs := s.lo_le_hi
    have total := Char.le_total s.lo r.lo
    split <;> split
    · exact Char.le_trans ‹r.lo ≤ s.lo› hs
    · exact hr
    · exact hs
    · exact Char.le_trans (total.resolve_right ‹¬r.lo ≤ s.lo›) hr

/-- The order of ranges: by their first character, then by their last. -/
def precedes (r s : CharRange) : Bool :=
  r.lo < s.lo || (r.lo == s.lo && r.hi ≤ s.hi)

/-- The number of characters in a range; the surrogates are none. -/
def size (r : CharRange) : Nat :=
  let codes := r.hi.toNat - r.lo.toNat + 1
  if r.lo.toNat < 0xD800 && 0xDFFF < r.hi.toNat then codes - 0x800 else codes

end CharRange

/-- A set of characters, as a list of ranges. -/
structure CharSet where
  ranges : List CharRange
deriving DecidableEq

namespace CharSet

/-- The set of no characters. -/
def empty : CharSet :=
  ⟨[]⟩

/-- The set of all characters. -/
def full : CharSet :=
  ⟨[CharRange.full]⟩

def contains (s : CharSet) (c : Char) : Bool :=
  s.ranges.any (·.contains c)

/-- The number of characters in a set whose ranges are disjoint. -/
def size (s : CharSet) : Nat :=
  s.ranges.foldl (fun n r => n + r.size) 0

/-- Joins to `current` the ranges that touch it, and so on with the first that does not. -/
def join (current : CharRange) : List CharRange → List CharRange
  | [] => [current]
  | r :: rest => if current.touches r then join (current.hull r) rest else current :: join r rest

/-- The set of the characters in any of the given ranges. -/
def ofRanges (rs : List CharRange) : CharSet :=
  match rs.mergeSort CharRange.precedes with
  | [] => empty
  | r :: rest => ⟨join r rest⟩

/-- The set of the given characters. -/
def ofChars (cs : List Char) : CharSet :=
  ofRanges (cs.map CharRange.single)

def union (s t : CharSet) : CharSet :=
  ofRanges (s.ranges ++ t.ranges)

/-- The next character; the surrogates are passed over. -/
def after (c : Char) : Char :=
  if c = '\ud7ff' then '\ue000' else Char.ofNat (c.toNat + 1)

/-- The previous character; the surrogates are passed over. -/
def before (c : Char) : Char :=
  if c = '\ue000' then '\ud7ff' else Char.ofNat (c.toNat - 1)

/-- The ranges between neighbours.  Neighbours that meet at the surrogates have nothing between
them, and the range given for them is that of the two characters where they meet. -/
def gaps : List CharRange → List CharRange
  | r :: s :: rest => CharRange.between (after r.hi) (before s.lo) :: gaps (s :: rest)
  | _ => []

/-- The range before the first of `rs`, if there is one. -/
def leading (rs : List CharRange) : List CharRange :=
  match rs.head? with
  | some r => if '\x00' < r.lo then [CharRange.between '\x00' (before r.lo)] else []
  | none => []

/-- The range after the last of `rs`, if there is one. -/
def trailing (rs : List CharRange) : List CharRange :=
  match rs.getLast? with
  | some r => if r.hi < lastChar then [CharRange.between (after r.hi) lastChar] else []
  | none => []

/-- The set of the other characters, up to what `gaps` says of the surrogates. -/
def complement (s : CharSet) : CharSet :=
  if s.ranges.isEmpty then full
  else ⟨leading s.ranges ++ gaps s.ranges ++ trailing s.ranges⟩

end CharSet
end LinearRegex
