import LinearRegex.Unicode.Folding

/-!
# Character classes

A class is what a pattern writes as `[a-z]`, `.`, `\d`, `[:alpha:]` or `\pL`: a list of items and
whether it is negated.  The set it stands for is that of the characters in some item, or in none of
them if the class is negated.
-/

namespace LinearRegex

/-- A range of a class.  With `fold`, it also holds all characters equal to one of its own when
case is ignored. -/
structure ClassRange where
  range : CharRange
  fold : Bool
deriving DecidableEq

/-- An item between brackets: a range, or a class with a name and a negation of its own. -/
inductive ClassItem where
  | range (r : ClassRange)
  | nested (negated : Bool) (ranges : List ClassRange)
deriving DecidableEq

structure CharClass where
  negated : Bool
  items : List ClassItem
deriving DecidableEq

/-- The ranges of the characters in a range of a class. -/
def ClassRange.chars (r : ClassRange) : List CharRange :=
  if r.fold then r.range.foldCase else [r.range]

/-- The set of the characters in the given ranges, or of those in none. -/
def CharSet.ofClass (negated : Bool) (rs : List CharRange) : CharSet :=
  if negated then (ofRanges rs).complement else ofRanges rs

/-- The ranges of the characters in an item. -/
def ClassItem.chars : ClassItem → List CharRange
  | range r => r.chars
  | nested negated ranges => (CharSet.ofClass negated (ranges.flatMap ClassRange.chars)).ranges

namespace CharClass

/-- The set of characters that a class stands for. -/
def toSet (c : CharClass) : CharSet :=
  CharSet.ofClass c.negated (c.items.flatMap ClassItem.chars)

/-- The class of the given ranges. -/
def ofRanges (negated : Bool) (ranges : List ClassRange) : CharClass where
  negated := negated
  items := ranges.map ClassItem.range

end CharClass
end LinearRegex
