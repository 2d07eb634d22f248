import LinearRegex.Haystack

/-!
# Sets of bytes
-/

namespace LinearRegex

/-- A set of bytes: for each of them, whether it is a member. -/
structure ByteSet where
  members : Vector Bool 256
deriving DecidableEq

namespace ByteSet

/-- The set of the bytes that satisfy a test. -/
def filter (p : UInt8 → Bool) : ByteSet :=
  ⟨Vector.ofFn fun i => p (UInt8.ofNat i)⟩

def contains (s : ByteSet) (b : UInt8) : Bool :=
  have := b.toNat_lt
  s.members[b.toNat]

theorem contains_filter (p : UInt8 → Bool) (b : UInt8) : (filter p).contains b = p b := by
  simp [contains, filter]

def empty : ByteSet :=
  filter fun _ => false

/-- Adds the bytes from `lo` to `hi`. -/
def addRange (s : ByteSet) (lo hi : UInt8) : ByteSet :=
  filter fun b => s.contains b || (lo ≤ b && b ≤ hi)

def union (s t : ByteSet) : ByteSet :=
  filter fun b => s.contains b || t.contains b

/-- The bytes of a set, in ascending order. -/
def toList (s : ByteSet) : List UInt8 :=
  ((List.range 256).map UInt8.ofNat).filter s.contains

def size (s : ByteSet) : Nat :=
  s.toList.length

def isEmpty (s : ByteSet) : Bool :=
  s.toList.isEmpty

/-- Two sets have a byte in common. -/
def intersects (s t : ByteSet) : Bool :=
  s.toList.any t.contains

/-- The byte at `pos` is in the set. -/
def containsAt (s : ByteSet) (h : ByteArray) (pos : Nat) : Bool :=
  h[pos]?.any s.contains

/-- The first position from `pos` on whose byte is in the set. -/
def find? (s : ByteSet) (h : ByteArray) (pos : Nat) : Option Nat :=
  Haystack.first? (s.containsAt h) pos h.size

end ByteSet
end LinearRegex
