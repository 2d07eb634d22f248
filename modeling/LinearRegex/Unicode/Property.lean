import LinearRegex.Unicode.Category
import LinearRegex.Unicode.Script

/-!
# Properties of characters

The classes of characters that a pattern can name, and the word characters.
-/

namespace LinearRegex
namespace Unicode

/-- The general categories of one letter, which gather those of two letters. -/
def majorCategories : List (String × Char) :=
  [("L", 'L'), ("M", 'M'), ("N", 'N'), ("P", 'P'), ("S", 'S'), ("Z", 'Z')]

/-- The set that a name stands for: `Any`, a general category under its short name, or a script
under its canonical name.  Case matters, and there are no aliases.  Surrogates are not characters,
so `Cs` is empty; `C` leaves out the unassigned code points. -/
def property? (name : String) : Option CharSet :=
  if name = "Any" then some CharSet.full
  else if name = "Cs" then some CharSet.empty
  else if name = "C" then some (majorCategory 'C')
  else
    match majorCategories.lookup name with
    | some initial => some (majorCategory initial)
    | none => (category? name).or (script? name)

/-- The characters of the given general categories. -/
def categoryUnion (names : List String) : List CharRange :=
  names.flatMap fun name => ((category? name).map (·.ranges)).getD []

/-- Alphabetic characters that are not letters, marks or numbers, and the two joiners. -/
def otherWordChars : CharSet :=
  Table.read "200C-200D 24B6-24E9 1F130-1F149 1F150-1F169 1F170-1F189"

/-- The word characters: alphabetic characters, marks, decimal digits, connector punctuation and
the two joiners. -/
def wordChars : CharSet :=
  CharSet.ofRanges <| otherWordChars.ranges ++
    categoryUnion ["Ll", "Lm", "Lo", "Lt", "Lu", "Mc", "Me", "Mn", "Nd", "Nl", "Pc"]

def isAsciiWordChar (c : Char) : Bool :=
  c.isAlphanum || c = '_'

def isWordChar (c : Char) : Bool :=
  if c.toNat < 0x80 then isAsciiWordChar c else wordChars.contains c

end Unicode
end LinearRegex
