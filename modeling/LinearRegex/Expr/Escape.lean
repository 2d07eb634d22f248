import LinearRegex.CharClass
import LinearRegex.Expr.Cursor
import LinearRegex.Expr.Error
import LinearRegex.Expr.Options
import LinearRegex.Text.Digits
import LinearRegex.Unicode.Property

/-!
# Escapes

A backslash introduces a character, as in `\n`, `\101`, `\x41` or `\*`, or a class, as in `\d` or
`\p{Greek}`.  The readers of this module start after the backslash; `start` is where it stands.
-/

namespace LinearRegex
namespace Escape

/-- The characters that a letter stands for. -/
def controls : List (Char × Char) :=
  [('a', '\x07'), ('f', '\x0c'), ('t', '\t'), ('n', '\n'), ('r', '\r'), ('v', '\x0b')]

/-- The ASCII characters that are neither letters, digits, blanks nor controls. -/
def isPunctuation (c : Char) : Bool :=
  '!' ≤ c && c ≤ '~' && !c.isAlphanum

/-- At most two more digits of an octal code. -/
def moreOctalDigits (cs : List Char) : List Char :=
  (cs.take 2).takeWhile (Text.isDigit 8)

/-- The character whose code is written in one to eight hexadecimal digits. -/
def hexChar? (digits : List Char) : Option Char :=
  if digits ≠ [] ∧ digits.length ≤ 8 ∧ digits.all (Text.isDigit 16) then
    let code := Text.digitsValue 16 digits
    if code.isValidChar then some (Char.ofNat code) else none
  else none

/-- The digits of a hexadecimal code, and the position after it: either two characters or what
braces enclose.  An incomplete code extends to the end of the pattern. -/
def hexDigits (cur : Cursor) : Option (List Char) × Cursor :=
  match cur.next? with
  | some ('{', mid) =>
    match mid.until? '}' with
    | some (digits, after) => (some digits, after)
    | none => (none, ⟨[], cur.finish⟩)
  | _ =>
    match cur.rest with
    | a :: b :: _ => (some [a, b], cur.drop 2)
    | _ => (none, cur.drop 2)

/-- Reads an escape that stands for a character. -/
def readChar (start : Nat) (cur : Cursor) : Except Fault (Char × Cursor) :=
  match cur.next? with
  | none => .error ⟨.trailingBackslash, start, cur.finish⟩
  | some (c, mid) =>
    match controls.lookup c with
    | some control => .ok (control, mid)
    | none =>
      if Text.isDigit 8 c then
        let more := moreOctalDigits mid.rest
        if c = '0' ∨ more ≠ [] then
          .ok (Char.ofNat (Text.digitsValue 8 (c :: more)), mid.drop more.length)
        else
          .error ⟨.invalidEscape, start, mid.pos⟩
      else if c = 'x' then
        let (digits, after) := hexDigits mid
        match digits.bind hexChar? with
        | some code => .ok (code, after)
        | none => .error ⟨.invalidEscape, start, after.pos⟩
      else if isPunctuation c then
        .ok (c, mid)
      else
        .error ⟨.invalidEscape, start, mid.pos⟩

/-- A class with a name and a negation of its own. -/
structure NamedClass where
  negated : Bool
  ranges : List ClassRange

/-- The class of the given ranges, all of which ignore case or none. -/
def NamedClass.ofRanges (negated fold : Bool) (ranges : List CharRange) : NamedClass where
  negated := negated
  ranges := ranges.map fun r => ⟨r, fold⟩

def NamedClass.toItem (c : NamedClass) : ClassItem :=
  .nested c.negated c.ranges

def NamedClass.toClass (c : NamedClass) : CharClass :=
  .ofRanges c.negated c.ranges

/-- The ranges of the digits, the blanks and the ASCII word characters. -/
def asciiClasses : List (Char × List CharRange) :=
  [('d', [.between '0' '9']),
   ('s', [.between '\t' '\n', .between '\x0c' '\r', .single ' ']),
   ('w', [.between '0' '9', .between 'A' 'Z', .single '_', .between 'a' 'z'])]

/-- The letter stands for a class. -/
def isClassLetter (c : Char) : Bool :=
  c ∈ ['d', 'D', 's', 'S', 'w', 'W', 'p', 'P']

/-- An escape that stands for a class begins here, at its backslash. -/
def startsClass : List Char → Bool
  | '\\' :: c :: _ => isClassLetter c
  | _ => false

/-- Reads the name of a property: a single character, or what braces enclose. -/
def readPropertyName (start : Nat) (cur : Cursor) : Except Fault (List Char × Cursor) :=
  match cur.next? with
  | none => .error ⟨.invalidCharRange, start, cur.finish⟩
  | some ('{', mid) =>
    match mid.until? '}' with
    | none => .error ⟨.invalidCharRange, start, cur.finish⟩
    | some (name, after) => .ok (name, after)
  | some (c, mid) => .ok ([c], mid)

/-- A name, and whether a caret before it negates it. -/
def splitCaret : List Char → Bool × List Char
  | '^' :: name => (true, name)
  | name => (false, name)

/-- Reads an escape that stands for a class. -/
def readClass (unicodeClasses fold : Bool) (start : Nat) (cur : Cursor) :
    Except Fault (NamedClass × Cursor) :=
  match cur.next? with
  | none => .error ⟨.trailingBackslash, start, cur.finish⟩
  | some (letter, mid) =>
    match asciiClasses.lookup letter.toLower with
    | some ranges => .ok (.ofRanges letter.isUpper fold ranges, mid)
    | none =>
      if unicodeClasses then
        match readPropertyName start mid with
        | .error fault => .error fault
        | .ok (written, after) =>
          let (caret, name) := splitCaret written
          match Unicode.property? (String.ofList name) with
          | none => .error ⟨.invalidCharRange, start, after.pos⟩
          | some set => .ok (.ofRanges ((letter == 'P') != caret) fold set.ranges, after)
      else
        .error ⟨.invalidEscape, start, mid.pos⟩

theorem passes_readChar {start : Nat} {cur after : Cursor} {c : Char}
    (h : readChar start cur = .ok (c, after)) : cur.Passes after := by
  unfold readChar at h
  split at h
  · cases h
  · next letter mid hnext =>
    refine ⟨letter, mid, hnext, ?_⟩
    split at h
    · cases h; rfl
    · dsimp only at h
      split at h
      · split at h
        · cases h; exact Cursor.reaches_drop ..
        · cases h
      · split at h
        · split at h
          · next hcode =>
            cases h
            unfold hexDigits at hcode ⊢
            split at hcode
            · next inner hinner =>
              split at hcode
              · next hclose =>
                exact (Cursor.reaches_next hinner).trans (Cursor.reaches_until hclose)
              · simp at hcode
            · split <;> exact Cursor.reaches_drop ..
          · cases h
        · split at h
          · cases h; rfl
          · cases h

theorem reaches_readPropertyName {start : Nat} {cur after : Cursor} {name : List Char}
    (h : readPropertyName start cur = .ok (name, after)) : cur.Reaches after := by
  unfold readPropertyName at h
  split at h
  · cases h
  · next hnext =>
    split at h
    · cases h
    · next hclose =>
      cases h
      exact (Cursor.reaches_next hnext).trans (Cursor.reaches_until hclose)
  · cases h
    exact Cursor.reaches_next ‹_›

theorem passes_readClass {unicodeClasses fold : Bool} {start : Nat} {cur after : Cursor}
    {c : NamedClass} (h : readClass unicodeClasses fold start cur = .ok (c, after)) :
    cur.Passes after := by
  unfold readClass at h
  split at h
  · cases h
  · next letter mid hnext =>
    refine ⟨letter, mid, hnext, ?_⟩
    split at h
    · cases h; rfl
    · split at h
      · split at h
        · cases h
        · next hname =>
          dsimp only at h
          split at h
          · cases h
          · cases h
            exact reaches_readPropertyName hname
      · cases h

end Escape
end LinearRegex
