import LinearRegex.Text.Utf8
import LinearRegex.Unicode.Property

/-!
# Assertions

An assertion consumes nothing: it states a condition on what stands around a position of the
haystack.
-/

namespace LinearRegex

/-- The conditions that a pattern can state about a position. -/
inductive Look where
  | startText
  | endText
  | startLine
  | endLine
  | wordAscii
  | wordAsciiNegate
  | wordUnicode
  | wordUnicodeNegate
deriving DecidableEq

namespace Look

/-- The name of an assertion in listings. -/
def name : Look → String
  | startText => "START_TEXT"
  | endText => "END_TEXT"
  | startLine => "START_LINE"
  | endLine => "END_LINE"
  | wordAscii => "WORD_BOUNDARY"
  | wordAsciiNegate => "WORD_BOUNDARY_NEG"
  | wordUnicode => "WORD_BOUNDARY_UNICODE"
  | wordUnicodeNegate => "WORD_BOUNDARY_UNICODE_NEG"

/-- The ASCII letters, the digits and the underscore. -/
def isWordByte (b : UInt8) : Bool :=
  b < 0x80 && Unicode.isAsciiWordChar (Char.ofNat b.toNat)

/-- The byte before `pos`. -/
def byteBefore? (h : ByteArray) (pos : Nat) : Option UInt8 :=
  if pos = 0 then none else h[pos - 1]?

/-- Exactly one of the bytes around `pos` is a word byte. -/
def isAsciiWordBoundary (h : ByteArray) (pos : Nat) : Bool :=
  (byteBefore? h pos).any isWordByte != h[pos]?.any isWordByte

/-- Exactly one of the characters around `pos` is a word character.  Bytes that encode no
character are none. -/
def isUnicodeWordBoundary (h : ByteArray) (pos : Nat) : Bool :=
  (Utf8.decodeBefore? h pos).any Unicode.isWordChar != (Utf8.decodeAt? h pos).any Unicode.isWordChar

/-- The assertion holds at position `pos` of `h`. -/
def holds (look : Look) (h : ByteArray) (pos : Nat) : Bool :=
  match look with
  | startText => pos = 0
  | endText => pos = h.size
  | startLine => pos = 0 || byteBefore? h pos == some 0x0A
  | endLine => pos = h.size || h[pos]? == some 0x0A
  | wordAscii => isAsciiWordBoundary h pos
  | wordAsciiNegate => !isAsciiWordBoundary h pos
  | wordUnicode => isUnicodeWordBoundary h pos
  | wordUnicodeNegate => !isUnicodeWordBoundary h pos

end Look
end LinearRegex
