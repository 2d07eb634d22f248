import LinearRegex.Expr.Basic
import LinearRegex.Program.ByteTrie

/-!
# Expressions over bytes

Between an expression over characters and its program stands an expression over bytes.  Characters
have become their encodings, classes have become tries, and counted repetitions have become copies
that follow each other or lie in each other.  Each form has its own shape in the program, so the
size of the program is already known here.
-/

namespace LinearRegex

/-- Expressions over bytes. -/
inductive ByteExpr where
  /-- Matches nothing at all. -/
  | fail
  /-- Matches the given bytes. -/
  | bytes (bs : List UInt8)
  /-- Matches the bytes of one character. -/
  | char (t : ByteTrie)
  | look (l : Look)
  | capture (index : Nat) (body : ByteExpr)
  | seq (first second : ByteExpr)
  /-- Matches one of two expressions and prefers the first. -/
  | choice (first second : ByteExpr)
  /-- Matches `more + 1` copies of `body`. -/
  | times (more : Nat) (body : ByteExpr)
  /-- Matches up to `more + 1` copies of `body`. -/
  | atMost (more : Nat) (greedy : Bool) (body : ByteExpr)
  /-- Matches any number of copies of `body`. -/
  | star (greedy : Bool) (body : ByteExpr)
  /-- Matches one or more copies of `body`. -/
  | plus (greedy : Bool) (body : ByteExpr)
deriving DecidableEq

namespace ByteExpr

/-- Matches the empty text. -/
def empty : ByteExpr :=
  bytes []

/-- Matches a character of the set. -/
def ofSet (s : CharSet) : ByteExpr :=
  if s.ranges.isEmpty then fail else char (ByteTrie.ofSet s)

/-- Matches the expressions one after the other. -/
def sequence : List ByteExpr → ByteExpr
  | [] => empty
  | [e] => e
  | e :: es => seq e (sequence es)

/-- Matches one of the expressions and prefers those in front. -/
def alternatives : List ByteExpr → ByteExpr
  | [] => empty
  | [e] => e
  | e :: es => choice e (alternatives es)

/-- Exactly `n` copies. -/
def exactly (n : Nat) (body : ByteExpr) : List ByteExpr :=
  match n with
  | 0 => []
  | n + 1 => [times n body]

/-- Up to `n` copies. -/
def optional (n : Nat) (greedy : Bool) (body : ByteExpr) : List ByteExpr :=
  match n with
  | 0 => []
  | n + 1 => [atMost n greedy body]

/-- Matches `min` to `max` copies of `body`.  A repetition without an upper bound ends with a loop
around the last of the copies it needs. -/
def repeated (min : Nat) (max : Option Nat) (greedy : Bool) (body : ByteExpr) : ByteExpr :=
  match min, max with
  | 0, none => star greedy body
  | n + 1, none => sequence (exactly n body ++ [plus greedy body])
  | n, some m => sequence (exactly n body ++ optional (m - n) greedy body)

/-- The number of instructions of the program. -/
def size : ByteExpr → Nat
  | fail | look _ => 1
  | bytes bs => max 1 bs.length
  | char t => t.size
  | capture _ body => body.size + 2
  | seq first second => first.size + second.size
  | choice first second => 1 + first.size + second.size
  | times more body => (more + 1) * body.size
  | atMost more _ body => (more + 1) * (1 + body.size)
  | star _ body | plus _ body => body.size + 1

end ByteExpr

namespace Expr

mutual

/-- The expression over the bytes of the characters that an expression matches. -/
def bytewise : Expr → ByteExpr
  | empty => .empty
  | literal chars false => .bytes (Utf8.encodeAll chars)
  | literal chars true => .sequence (chars.map fun c => .ofSet (CharSet.caseOrbit c))
  | charClass c => .ofSet c.toSet
  | look l => .look l
  | repetition min max greedy body => .repeated min max greedy body.bytewise
  | capture index _ body => .capture index body.bytewise
  | concat parts => .sequence (bytewiseAll parts)
  | alternation branches => .alternatives (bytewiseAll branches)

/-- The expressions over bytes of a list of expressions. -/
def bytewiseAll : List Expr → List ByteExpr
  | [] => []
  | e :: es => e.bytewise :: bytewiseAll es

end

end Expr
end LinearRegex
