/-!
# UTF-8 over raw bytes

A haystack is a `ByteArray` that need not be valid UTF-8.  This module holds what the rest of the
library asks about one: the bytes of a character, where characters begin, which character starts
or ends at an offset, the text between two offsets, and the reading in which every malformed piece
becomes U+FFFD.
-/

namespace LinearRegex
namespace Utf8

/-- The bytes that encode a character. -/
def encode (c : Char) : List UInt8 :=
  String.utf8EncodeChar c

/-- The bytes that encode a sequence of characters. -/
def encodeAll (cs : List Char) : List UInt8 :=
  cs.flatMap encode

/-- The number of bytes that encode a sequence of characters. -/
def length (cs : List Char) : Nat :=
  cs.foldr (fun c n => c.utf8Size + n) 0

@[simp] theorem length_nil : length [] = 0 := rfl

@[simp] theorem length_cons (c : Char) (cs : List Char) :
    length (c :: cs) = c.utf8Size + length cs := rfl

@[simp] theorem length_append (cs ds : List Char) : length (cs ++ ds) = length cs + length ds := by
  induction cs with
  | nil => rw [List.nil_append, length_nil, Nat.zero_add]
  | cons c cs ih => rw [List.cons_append, length_cons, length_cons, ih, Nat.add_assoc]

/-- A byte of the form `10xxxxxx`, which only continues a character. -/
def isContinuation (b : UInt8) : Bool :=
  b &&& 0xC0 == 0x80

/-- No byte that continues a character stands at `pos`.  The end, and what lies past it, count as
boundaries. -/
def isBoundary (h : ByteArray) (pos : Nat) : Bool :=
  match h[pos]? with
  | some b => !isContinuation b
  | none => true

/-- The character whose encoding starts at `pos`. -/
def decodeAt? (h : ByteArray) (pos : Nat) : Option Char :=
  h.utf8DecodeChar? pos

/-- The character whose encoding ends at `pos`. -/
def decodeBefore? (h : ByteArray) (pos : Nat) : Option Char :=
  [1, 2, 3, 4].findSome? fun size =>
    if size ≤ pos then (decodeAt? h (pos - size)).filter (·.utf8Size == size) else none

/-- The text between two offsets; `none` if they are out of order or out of range, or if one of
them cuts a character. -/
def slice? (h : ByteArray) (start stop : Nat) : Option String :=
  if start ≤ stop ∧ stop ≤ h.size ∧ isBoundary h start ∧ isBoundary h stop then
    String.fromUTF8? (h.extract start stop)
  else
    none

/-- The second byte of an encoding that starts with `lead` may be `second`.  Overlong forms,
surrogates and code points past U+10FFFF show here. -/
def continues (lead second : UInt8) : Bool :=
  if lead == 0xE0 then 0xA0 ≤ second && second ≤ 0xBF
  else if lead == 0xED then 0x80 ≤ second && second ≤ 0x9F
  else if lead == 0xF0 then 0x90 ≤ second && second ≤ 0xBF
  else if lead == 0xF4 then 0x80 ≤ second && second ≤ 0x8F
  else isContinuation second

/-- The length of the malformed piece at `pos`: the longest start of an encoding that stands there,
and at least one byte. -/
def malformedLength (h : ByteArray) (pos : Nat) : Nat :=
  match h[pos]?, h[pos + 1]?, h[pos + 2]? with
  | some lead, some second, third =>
    if 0xE0 ≤ lead && lead ≤ 0xF4 && continues lead second then
      if 0xF0 ≤ lead && (third.map isContinuation).getD false then 3 else 2
    else 1
  | _, _, _ => 1

theorem malformedLength_pos (h : ByteArray) (pos : Nat) : 0 < malformedLength h pos := by
  unfold malformedLength
  split
  · split
    · split <;> decide
    · decide
  · decide

/-- Reads from `pos` to the end, after the text `read` so far. -/
def readLossy (h : ByteArray) (pos : Nat) (read : String) : String :=
  if pos < h.size then
    match decodeAt? h pos with
    | some c => readLossy h (pos + c.utf8Size) (read.push c)
    | none => readLossy h (pos + malformedLength h pos) (read.push '\ufffd')
  else
    read
termination_by h.size - pos
decreasing_by
  · have := c.utf8Size_pos; omega
  · have := malformedLength_pos h pos; omega

/-- The text of a haystack, with U+FFFD in place of each malformed piece. -/
def lossy (h : ByteArray) : String :=
  readLossy h 0 ""

end Utf8
end LinearRegex
