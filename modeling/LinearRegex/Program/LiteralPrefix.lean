import LinearRegex.Haystack

/-!
# Literal prefixes

Bytes that every match of an expression starts with.  A complete prefix is all that the expression
matches.
-/

namespace LinearRegex

structure LiteralPrefix where
  bytes : List UInt8
  /-- The expression matches these bytes and nothing else. -/
  complete : Bool
deriving DecidableEq

namespace LiteralPrefix

/-- The bytes stand in `h` from `pos` on. -/
def bytesAt (h : ByteArray) (pos : Nat) : List UInt8 → Bool
  | [] => pos ≤ h.size
  | b :: bs => h[pos]? == some b && bytesAt h (pos + 1) bs

/-- The prefix stands in `h` at `pos`. -/
def isAt (p : LiteralPrefix) (h : ByteArray) (pos : Nat) : Bool :=
  bytesAt h pos p.bytes

/-- The first position from `pos` on at which the prefix stands. -/
def find? (p : LiteralPrefix) (h : ByteArray) (pos : Nat) : Option Nat :=
  Haystack.first? (p.isAt h) pos (h.size + 1)

end LiteralPrefix
end LinearRegex
