import LinearRegex.Expr.Cursor
import LinearRegex.Expr.Error
import LinearRegex.Expr.Options

/-!
# Openings of groups

An opening parenthesis begins a numbered group, a named one if `?P<name>` or `?<name>` follows, a
group without a number if modes and a colon follow, as in `(?i-s:`, and no group at all if modes
and a closing parenthesis follow, as in `(?i)`: that switches the modes for what is left of the
group around it.  The readers of this module start after the opening parenthesis; `start` is where
it stands.
-/

namespace LinearRegex
namespace Group

/-- What an opening parenthesis begins. -/
inductive Opening where
  /-- A group with a number, and perhaps a name. -/
  | capture (name : Option String)
  /-- A group without a number, read in the given modes. -/
  | plain (modes : Modes)
  /-- A switch to the given modes. -/
  | modes (modes : Modes)

/-- How many characters stand before the name of a group, if a name is what follows `(?`.  A name
does not begin with `=` or `!`. -/
def nameMark? : List Char → Option Nat
  | 'P' :: '<' :: _ => some 2
  | '<' :: '=' :: _ => none
  | '<' :: '!' :: _ => none
  | '<' :: _ => some 1
  | _ => none

/-- The names that groups may have: letters, digits and underscores, all ASCII. -/
def isName (name : List Char) : Bool :=
  name ≠ [] && name.all fun c => c.isAlphanum || c = '_'

/-- Reads the name of a group that is not among `taken`. -/
def readName (taken : List String) (start : Nat) (cur : Cursor) :
    Except Fault (Opening × Cursor) :=
  match cur.until? '>' with
  | none => .error ⟨.invalidNamedCapture, start, cur.finish⟩
  | some (name, after) =>
    if isName name then
      if String.ofList name ∈ taken then .error ⟨.duplicateCaptureName, start, after.pos⟩
      else .ok (.capture (some (String.ofList name)), after)
    else
      .error ⟨.invalidNamedCapture, start, after.pos⟩

/-- Reads modes and what ends them.  `negated` says that a hyphen was read, so that modes are
switched off, and `seen` that a mode stands since the hyphen or the beginning. -/
def readModes (start : Nat) (modes : Modes) (negated seen : Bool) (cur : Cursor) :
    Except Fault (Opening × Cursor) :=
  match _hnext : cur.next? with
  | none => .error ⟨.missingParen, start, cur.finish⟩
  | some (c, mid) =>
    match modes.switch? c !negated with
    | some switched => readModes start switched negated true mid
    | none =>
      if c = '-' ∧ ¬negated then readModes start modes true false mid
      else if c = ':' ∧ (seen ∨ ¬negated) then .ok (.plain modes, mid)
      else if c = ')' ∧ seen then .ok (.modes modes, mid)
      else .error ⟨.invalidPerlOp, start, mid.pos⟩
termination_by cur.rest.length
decreasing_by all_goals exact (Cursor.passes_next _hnext).length_lt

/-- Reads what an opening parenthesis begins. -/
def readOpening (modes : Modes) (taken : List String) (start : Nat) (cur : Cursor) :
    Except Fault (Opening × Cursor) :=
  match cur.next? with
  | some ('?', mid) =>
    match nameMark? mid.rest with
    | some n => readName taken start (mid.drop n)
    | none => readModes start modes false false mid
  | _ => .ok (.capture none, cur)

theorem reaches_readName {taken : List String} {start : Nat} {cur after : Cursor} {o : Opening}
    (h : readName taken start cur = .ok (o, after)) : cur.Reaches after := by
  unfold readName at h
  split at h
  · cases h
  · next hname =>
    split at h
    · split at h
      · cases h
      · cases h
        exact Cursor.reaches_until hname
    · cases h

theorem reaches_readModes {start : Nat} {modes : Modes} {negated seen : Bool}
    {cur after : Cursor} {o : Opening}
    (h : readModes start modes negated seen cur = .ok (o, after)) : cur.Reaches after := by
  fun_induction readModes start modes negated seen cur with
  | case1 => cases h
  | case2 _ _ _ _ _ _ hnext _ _ ih => exact (Cursor.reaches_next hnext).trans (ih h)
  | case3 _ _ _ _ _ _ hnext _ _ ih => exact (Cursor.reaches_next hnext).trans (ih h)
  | case4 _ _ _ _ _ _ hnext =>
    cases h
    exact Cursor.reaches_next hnext
  | case5 _ _ _ _ _ _ hnext =>
    cases h
    exact Cursor.reaches_next hnext
  | case6 => cases h

theorem reaches_readOpening {modes : Modes} {taken : List String} {start : Nat}
    {cur after : Cursor} {o : Opening}
    (h : readOpening modes taken start cur = .ok (o, after)) : cur.Reaches after := by
  unfold readOpening at h
  split at h
  · next hnext =>
    refine (Cursor.reaches_next hnext).trans ?_
    split at h
    · exact (Cursor.reaches_drop ..).trans (reaches_readName h)
    · exact reaches_readModes h
  · cases h
    rfl

end Group
end LinearRegex
