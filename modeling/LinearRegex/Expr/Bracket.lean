import LinearRegex.Expr.Escape

/-!
# Classes in brackets

Between brackets stand characters, ranges of characters, escapes, and classes with a name such as
`[:alpha:]`.  A closing bracket that comes first is an ordinary character.  The readers of this
module start after the opening bracket; `start` is where it stands.
-/

namespace LinearRegex
namespace Bracket

/-- The classes that have a name between brackets. -/
def posixClasses : List (String × List CharRange) :=
  [("alnum", [.between '0' '9', .between 'A' 'Z', .between 'a' 'z']),
   ("alpha", [.between 'A' 'Z', .between 'a' 'z']),
   ("ascii", [.between '\x00' '\x7f']),
   ("blank", [.single '\t', .single ' ']),
   ("cntrl", [.between '\x00' '\x1f', .single '\x7f']),
   ("digit", [.between '0' '9']),
   ("graph", [.between '!' '~']),
   ("lower", [.between 'a' 'z']),
   ("print", [.between ' ' '~']),
   ("punct", [.between '!' '/', .between ':' '@', .between '[' '\x60', .between '{' '~']),
   ("space", [.between '\t' '\r', .single ' ']),
   ("upper", [.between 'A' 'Z']),
   ("word", [.between '0' '9', .between 'A' 'Z', .between 'a' 'z', .single '_']),
   ("xdigit", [.between '0' '9', .between 'A' 'F', .between 'a' 'f'])]

/-- How many characters stand before the first `:]`, counting from `passed`. -/
def findClose (passed : Nat) : List Char → Option Nat
  | ':' :: ']' :: _ => some passed
  | [] => none
  | _ :: rest => findClose (passed + 1) rest

/-- The name between `[:` and `:]`, if the cursor stands before such a name. -/
def posixName? (cur : Cursor) : Option (List Char × Cursor) :=
  match cur.rest with
  | '[' :: ':' :: rest =>
    (findClose 0 rest).map fun n => (rest.take n, cur.drop (n + 4))
  | _ => none

/-- Reads a character of a class, written as it is or as an escape. -/
def readChar (start : Nat) (cur : Cursor) : Except Fault (Char × Cursor) :=
  match cur.next? with
  | none => .error ⟨.missingBracket, start, cur.finish⟩
  | some ('\\', mid) => Escape.readChar cur.pos mid
  | some (c, mid) => .ok (c, mid)

/-- A hyphen that begins the second half of a range is next.  Before the closing bracket it is an
ordinary character. -/
def hyphenFollows (cur : Cursor) : Bool :=
  match cur.rest with
  | '-' :: ']' :: _ => false
  | '-' :: _ => true
  | _ => false

/-- Reads a character, or a range of characters. -/
def readRange (fold : Bool) (start : Nat) (cur : Cursor) : Except Fault (ClassItem × Cursor) :=
  match readChar start cur with
  | .error fault => .error fault
  | .ok (lo, mid) =>
    if hyphenFollows mid then
      let upper := mid.drop 1
      if Escape.startsClass upper.rest then
        .error ⟨.invalidCharRange, cur.pos, upper.pos + 2⟩
      else
        match readChar start upper with
        | .error fault => .error fault
        | .ok (hi, after) =>
          if h : lo ≤ hi then .ok (.range ⟨⟨lo, hi, h⟩, fold⟩, after)
          else .error ⟨.invalidCharRange, cur.pos, after.pos⟩
    else
      .ok (.range ⟨.single lo, fold⟩, mid)

/-- Reads an item: a class with a name, an escape that stands for a class, a range, or a
character. -/
def readItem (unicodeClasses fold : Bool) (start : Nat) (cur : Cursor) :
    Except Fault (ClassItem × Cursor) :=
  match posixName? cur with
  | some (written, after) =>
    let (negated, name) := Escape.splitCaret written
    match posixClasses.lookup (String.ofList name) with
    | none => .error ⟨.invalidCharRange, cur.pos, after.pos⟩
    | some ranges => .ok ((Escape.NamedClass.ofRanges negated fold ranges).toItem, after)
  | none =>
    if Escape.startsClass cur.rest then
      match Escape.readClass unicodeClasses fold cur.pos (cur.drop 1) with
      | .error fault => .error fault
      | .ok (c, after) => .ok (c.toItem, after)
    else
      readRange fold start cur

theorem passes_of_passes_drop {cur after : Cursor} (h : (cur.drop 1).Passes after) :
    cur.Passes after := by
  cases hrest : cur.rest with
  | nil =>
    obtain ⟨c, mid, hnext, _⟩ := h
    simp [Cursor.next?, Cursor.drop, hrest] at hnext
  | cons c rest =>
    exact ⟨c, cur.drop 1, by simp [Cursor.next?, Cursor.drop, hrest], h.reaches⟩

theorem passes_readChar {start : Nat} {cur after : Cursor} {c : Char}
    (h : readChar start cur = .ok (c, after)) : cur.Passes after := by
  unfold readChar at h
  split at h
  · cases h
  · next mid hnext => exact ⟨_, mid, hnext, (Escape.passes_readChar h).reaches⟩
  · cases h
    exact Cursor.passes_next ‹_›

theorem passes_readRange {fold : Bool} {start : Nat} {cur after : Cursor} {item : ClassItem}
    (h : readRange fold start cur = .ok (item, after)) : cur.Passes after := by
  unfold readRange at h
  split at h
  · cases h
  · next mid hlo =>
    split at h
    · dsimp only at h
      split at h
      · cases h
      · split at h
        · cases h
        · next hhi =>
          split at h
          · cases h
            exact ((passes_readChar hlo).trans (Cursor.reaches_drop 1 _)).trans
              (passes_readChar hhi).reaches
          · cases h
    · cases h
      exact passes_readChar hlo

theorem passes_readItem {unicodeClasses fold : Bool} {start : Nat} {cur after : Cursor}
    {item : ClassItem} (h : readItem unicodeClasses fold start cur = .ok (item, after)) :
    cur.Passes after := by
  unfold readItem at h
  split at h
  · next hname =>
    dsimp only at h
    split at h
    · cases h
    · cases h
      unfold posixName? at hname
      split at hname
      · next rest hrest =>
        obtain ⟨n, _, hn⟩ := Option.map_eq_some_iff.1 hname
        cases hn
        refine ⟨'[', cur.drop 1, by simp [Cursor.next?, Cursor.drop, hrest], ⟨n + 3, ?_⟩⟩
        rw [Cursor.drop_drop]
        congr 1
        omega
      · cases hname
  · split at h
    · split at h
      · cases h
      · cases h
        exact passes_of_passes_drop (Escape.passes_readClass ‹_›)
    · exact passes_readRange h

/-- Reads the items up to the closing bracket, after the items `read` in reverse. -/
def readItems (unicodeClasses fold : Bool) (start : Nat) (read : List ClassItem) (cur : Cursor) :
    Except Fault (List ClassItem × Cursor) :=
  match cur.next? with
  | none => .error ⟨.missingBracket, start, cur.finish⟩
  | some (c, mid) =>
    if c = ']' ∧ read ≠ [] then
      .ok (read.reverse, mid)
    else
      match _hitem : readItem unicodeClasses fold start cur with
      | .error fault => .error fault
      | .ok (item, after) => readItems unicodeClasses fold start (item :: read) after
termination_by cur.rest.length
decreasing_by exact (passes_readItem _hitem).length_lt

/-- Reads a class. -/
def readClass (unicodeClasses fold : Bool) (start : Nat) (cur : Cursor) :
    Except Fault (CharClass × Cursor) :=
  let (negated, first) :=
    match cur.next? with
    | some ('^', mid) => (true, mid)
    | _ => (false, cur)
  match readItems unicodeClasses fold start [] first with
  | .error fault => .error fault
  | .ok (items, after) => .ok (⟨negated, items⟩, after)

theorem reaches_readItems {unicodeClasses fold : Bool} {start : Nat} {read items : List ClassItem}
    {cur after : Cursor}
    (h : readItems unicodeClasses fold start read cur = .ok (items, after)) :
    cur.Reaches after := by
  fun_induction readItems unicodeClasses fold start read cur with
  | case1 => cases h
  | case2 read cur c mid hnext _ =>
    cases h
    exact Cursor.reaches_next hnext
  | case3 => cases h
  | case4 read cur c mid hnext _ item after' hitem ih =>
    exact (passes_readItem hitem).reaches.trans (ih h)

theorem reaches_readClass {unicodeClasses fold : Bool} {start : Nat} {cur after : Cursor}
    {c : CharClass} (h : readClass unicodeClasses fold start cur = .ok (c, after)) :
    cur.Reaches after := by
  unfold readClass at h
  dsimp only at h
  split at h
  · cases h
  · next hitems =>
    cases h
    have := reaches_readItems hitems
    split at this
    · next hnext => exact (Cursor.reaches_next hnext).trans this
    · exact this

end Bracket
end LinearRegex
