import LinearRegex.Expr.Basic
import LinearRegex.Expr.Cursor
import LinearRegex.Expr.Error
import LinearRegex.Text.Digits

/-!
# Quantifiers

`*`, `+`, `?` and counts such as `{2,5}` repeat what stands before them, and a `?` after one
makes it lazy.  Braces that do not enclose a count are ordinary characters.  A quantifier applies
to no other quantifier.
-/

namespace LinearRegex

/-- The largest number that a count may state. -/
def maxRepeat : Nat := 1000

/-- A count as it is written, and how many characters it takes. -/
structure Count where
  min : Nat
  /-- `none` if the count states no upper bound. -/
  max : Option Nat
  length : Nat

/-- The count with the given digits, after its opening brace and at its comma or closing brace. -/
def closeCount? (lower : List Char) : List Char → Option Count
  | '}' :: _ =>
    some ⟨Text.digitsValue 10 lower, some (Text.digitsValue 10 lower), lower.length + 2⟩
  | ',' :: rest =>
    match rest.dropWhile Char.isDigit with
    | '}' :: _ =>
      match rest.takeWhile Char.isDigit with
      | [] => some ⟨Text.digitsValue 10 lower, none, lower.length + 3⟩
      | upper =>
        some ⟨Text.digitsValue 10 lower, some (Text.digitsValue 10 upper),
          lower.length + upper.length + 3⟩
    | _ => none
  | _ => none

/-- The count at the start of `cs`: braces around a number, around a number and a comma, or around
two numbers with a comma between them. -/
def scanCount? : List Char → Option Count
  | '{' :: rest =>
    match rest.takeWhile Char.isDigit with
    | [] => none
    | lower => closeCount? lower (rest.dropWhile Char.isDigit)
  | _ => none

/-- The bounds of a count are in order and not too large. -/
def Count.isValid (c : Count) : Bool :=
  c.min ≤ maxRepeat && c.max.all fun m => c.min ≤ m && m ≤ maxRepeat

/-- How often something repeats, and whether it prefers few repetitions to many. -/
structure Quantifier where
  min : Nat
  max : Option Nat
  isLazy : Bool

/-- The expression repeated as the quantifier says. -/
def Quantifier.apply (q : Quantifier) (swapGreed : Bool) (e : Expr) : Expr :=
  .repetition q.min q.max (q.isLazy == swapGreed) e

/-- The quantifier with the given bounds; the cursor is where its mark of laziness may stand. -/
def lazyMark (min : Nat) (max : Option Nat) (cur : Cursor) : Quantifier × Cursor :=
  match cur.next? with
  | some ('?', after) => (⟨min, max, true⟩, after)
  | _ => (⟨min, max, false⟩, cur)

/-- Reads a quantifier if there is one. -/
def readQuantifier (cur : Cursor) : Except Fault (Option (Quantifier × Cursor)) :=
  match cur.next? with
  | some ('*', after) => .ok (some (lazyMark 0 none after))
  | some ('+', after) => .ok (some (lazyMark 1 none after))
  | some ('?', after) => .ok (some (lazyMark 0 (some 1) after))
  | _ =>
    match scanCount? cur.rest with
    | none => .ok none
    | some count =>
      let after := cur.drop count.length
      if count.isValid then .ok (some (lazyMark count.min count.max after))
      else .error ⟨.invalidRepeatSize, cur.pos, after.pos⟩

/-- Reads the quantifier of `e`, if it has one.  A second one is refused. -/
def quantify (swapGreed : Bool) (e : Expr) (cur : Cursor) : Except Fault (Expr × Cursor) :=
  match readQuantifier cur with
  | .error fault => .error fault
  | .ok none => .ok (e, cur)
  | .ok (some (q, after)) =>
    match readQuantifier after with
    | .error fault => .error fault
    | .ok none => .ok (q.apply swapGreed e, after)
    | .ok (some (_, later)) => .error ⟨.invalidRepeatOp, cur.pos, later.pos⟩

theorem reaches_lazyMark (min : Nat) (max : Option Nat) (cur : Cursor) :
    cur.Reaches (lazyMark min max cur).2 := by
  unfold lazyMark
  split
  · exact Cursor.reaches_next ‹_›
  · rfl

theorem reaches_of_lazyMark {min : Nat} {max : Option Nat} {q : Quantifier} {cur mid after : Cursor}
    (hmid : cur.Reaches mid)
    (h : (Except.ok (some (lazyMark min max mid)) : Except Fault _) = .ok (some (q, after))) :
    cur.Reaches after := by
  injection h with h
  injection h with h
  have := reaches_lazyMark min max mid
  rw [h] at this
  exact hmid.trans this

theorem reaches_readQuantifier {cur after : Cursor} {q : Quantifier}
    (h : readQuantifier cur = .ok (some (q, after))) : cur.Reaches after := by
  unfold readQuantifier at h
  split at h
  · exact reaches_of_lazyMark (Cursor.reaches_next ‹_›) h
  · exact reaches_of_lazyMark (Cursor.reaches_next ‹_›) h
  · exact reaches_of_lazyMark (Cursor.reaches_next ‹_›) h
  · split at h
    · cases h
    · dsimp only at h
      split at h
      · exact reaches_of_lazyMark (Cursor.reaches_drop ..) h
      · cases h

theorem reaches_quantify {swapGreed : Bool} {e e' : Expr} {cur after : Cursor}
    (h : quantify swapGreed e cur = .ok (e', after)) : cur.Reaches after := by
  unfold quantify at h
  split at h
  · cases h
  · cases h
    rfl
  · split at h
    · cases h
    · cases h
      exact reaches_readQuantifier ‹_›
    · cases h

end LinearRegex
