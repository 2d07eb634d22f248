import LinearRegex.Expr.Bracket
import LinearRegex.Expr.Group
import LinearRegex.Expr.Quantifier

/-!
# Reading expressions

A pattern is read from left to right, one item at a time.  The state of the reader holds the groups
that are open, innermost first, and for the innermost the branches that are complete and the items
of the one that is not.  Every step reads on (`passes_step`), so the reader comes to an end.
-/

namespace LinearRegex
namespace Parser

/-- A group whose closing parenthesis is still to come, and what stands before it in the group
around it. -/
structure OpenGroup where
  start : Nat
  /-- The number and the name of the group, if it is numbered. -/
  capture : Option (Nat × Option String)
  /-- The modes to return to. -/
  modes : Modes
  branches : List Expr
  items : List Expr

/-- Where the reader is and what it has read. -/
structure State where
  cur : Cursor
  modes : Modes
  /-- How many groups have a number so far. -/
  captures : Nat
  /-- The names of groups so far. -/
  names : List String
  /-- How many groups and classes are entered and not left. -/
  depth : Nat
  /-- The groups that are open, innermost first. -/
  groups : List OpenGroup
  /-- The branches that are complete, last first. -/
  branches : List Expr
  /-- The items of the current branch, last first. -/
  items : List Expr

/-- The start of a pattern. -/
def State.initial (modes : Modes) (pattern : List Char) : State where
  cur := .start pattern
  modes := modes
  captures := 0
  names := []
  depth := 0
  groups := []
  branches := []
  items := []

/-- The literal of one character.  A character that is alone in its case orbit never ignores
case. -/
def literal (modes : Modes) (c : Char) : Expr :=
  .literal [c] (modes.ignoreCase && Unicode.hasCaseVariants c)

/-- Puts an item before others.  Literals that meet and agree on case become one. -/
def prepend (following : List Expr) (e : Expr) : List Expr :=
  match e, following with
  | .literal cs fold, .literal ds fold' :: rest =>
    if fold = fold' then .literal (cs ++ ds) fold :: rest else e :: following
  | _, _ => e :: following

/-- The expression of items that follow each other, given last first. -/
def concatOf (items : List Expr) : Expr :=
  match items.foldl prepend [] with
  | [] => .empty
  | [e] => e
  | es => .concat es

/-- The expression of branches, given last first. -/
def alternationOf : List Expr → Expr
  | [] => .empty
  | [e] => e
  | es => .alternation es.reverse

/-- The expression of the innermost open group as far as it is read. -/
def State.body (s : State) : Expr :=
  alternationOf (concatOf s.items :: s.branches)

/-- The expression of a group, given what is between its parentheses. -/
def OpenGroup.close (g : OpenGroup) (body : Expr) : Expr :=
  match g.capture with
  | some (index, name) => .capture index name body
  | none => body

/-- Adds an item after reading its quantifier. -/
def State.push (s : State) (e : Expr) (cur : Cursor) : Except Fault State :=
  match quantify s.modes.swapGreed e cur with
  | .error fault => .error fault
  | .ok (e, after) => .ok { s with cur := after, items := e :: s.items }

/-- How many characters stand before the first `\E` or before the end, and how many with the `\E`,
counting from `passed`. -/
def quotedLength (passed : Nat) : List Char → Nat × Nat
  | '\\' :: 'E' :: _ => (passed, passed + 2)
  | [] => (passed, passed)
  | _ :: rest => quotedLength (passed + 1) rest

/-- Reads what `\Q` quotes.  A quantifier after it applies to its last character alone. -/
def State.readQuoted (s : State) (cur : Cursor) : Except Fault State :=
  let (length, lengthWithEnd) := quotedLength 0 cur.rest
  let text := cur.rest.take length
  let after := cur.drop lengthWithEnd
  match text.getLast? with
  | none => .ok { s with cur := after }
  | some last =>
    { s with items := (text.dropLast.map (literal s.modes)).reverse ++ s.items }.push
      (literal s.modes last) after

/-- The assertion for which an escape with the given letter stands. -/
def escapedLook? (unicodeWordBoundary : Bool) : Char → Option Look
  | 'A' => some .startText
  | 'z' => some .endText
  | 'b' => some (if unicodeWordBoundary then .wordUnicode else .wordAscii)
  | 'B' => some (if unicodeWordBoundary then .wordUnicodeNegate else .wordAsciiNegate)
  | _ => none

/-- Reads an escape outside brackets. -/
def readEscape (o : ParserOptions) (modes : Modes) (start : Nat) (cur : Cursor) :
    Except Fault (Expr × Cursor) :=
  match cur.next? with
  | none => .error ⟨.trailingBackslash, start, cur.finish⟩
  | some (c, mid) =>
    match escapedLook? o.unicodeWordBoundary c with
    | some l => .ok (.look l, mid)
    | none =>
      if Escape.isClassLetter c then
        match Escape.readClass o.unicodeClasses modes.ignoreCase start cur with
        | .error fault => .error fault
        | .ok (named, after) => .ok (.charClass named.toClass, after)
      else
        match Escape.readChar start cur with
        | .error fault => .error fault
        | .ok (d, after) => .ok (literal modes d, after)

/-- The classes of a dot: all characters, or all but the newline. -/
def dot (modes : Modes) : CharClass :=
  if modes.dotAll then .ofRanges false [⟨.full, false⟩]
  else .ofRanges false [⟨.between '\x00' '\t', false⟩, ⟨.between '\x0b' lastChar, false⟩]

/-- Enters a group or a class, unless that is too deep. -/
def State.enter (o : ParserOptions) (s : State) : Except Fault State :=
  if o.nestLimit < s.depth + 1 then .error ⟨.nestingDepth, s.cur.pos, s.cur.pos + 1⟩
  else .ok { s with depth := s.depth + 1 }

/-- Leaves a group or a class. -/
def State.leave (s : State) : State :=
  { s with depth := s.depth - 1 }

/-- Begins a group, or switches modes. -/
def State.openGroup (o : ParserOptions) (s : State) (cur : Cursor) : Except Fault State :=
  match s.enter o with
  | .error fault => .error fault
  | .ok s =>
    match Group.readOpening s.modes s.names s.cur.pos cur with
    | .error fault => .error fault
    | .ok (.modes modes, after) => .ok { s.leave with cur := after, modes := modes }
    | .ok (.plain modes, after) =>
      .ok { s with
        cur := after
        modes := modes
        groups := ⟨s.cur.pos, none, s.modes, s.branches, s.items⟩ :: s.groups
        branches := []
        items := [] }
    | .ok (.capture name, after) =>
      .ok { s with
        cur := after
        captures := s.captures + 1
        names := name.toList ++ s.names
        groups := ⟨s.cur.pos, some (s.captures + 1, name), s.modes, s.branches, s.items⟩ :: s.groups
        branches := []
        items := [] }

/-- Ends the innermost group. -/
def State.closeGroup (s : State) (cur : Cursor) : Except Fault State :=
  match s.groups with
  | [] => .error ⟨.unexpectedParen, s.cur.pos, s.cur.pos + 1⟩
  | g :: groups =>
    { s.leave with
      modes := g.modes
      groups := groups
      branches := g.branches
      items := g.items }.push (g.close s.body) cur

/-- Reads a class in brackets, which counts as nested in the open groups. -/
def State.readBracket (o : ParserOptions) (s : State) (cur : Cursor) : Except Fault State :=
  match s.enter o with
  | .error fault => .error fault
  | .ok s =>
    match Bracket.readClass o.unicodeClasses s.modes.ignoreCase s.cur.pos cur with
    | .error fault => .error fault
    | .ok (c, after) => s.leave.push (.charClass c) after

/-- Reads what begins with a backslash. -/
def State.readBackslash (o : ParserOptions) (s : State) (cur : Cursor) : Except Fault State :=
  match cur.next? with
  | some ('Q', mid) => s.readQuoted mid
  | _ =>
    match readEscape o s.modes s.cur.pos cur with
    | .error fault => .error fault
    | .ok (e, after) => s.push e after

/-- Reads what begins with a brace: it is refused where a count has nothing to repeat, and is an
ordinary character otherwise. -/
def State.readBrace (s : State) (cur : Cursor) : Except Fault State :=
  match scanCount? s.cur.rest with
  | some count => .error ⟨.missingRepeatArgument, s.cur.pos, s.cur.pos + count.length⟩
  | none => s.push (literal s.modes '{') cur

/-- Reads what begins with the character `c`; the cursor stands after it. -/
def State.read (o : ParserOptions) (s : State) (c : Char) (cur : Cursor) : Except Fault State :=
  match c with
  | '|' => .ok { s with cur := cur, branches := concatOf s.items :: s.branches, items := [] }
  | ')' => s.closeGroup cur
  | '(' => s.openGroup o cur
  | '[' => s.readBracket o cur
  | '\\' => s.readBackslash o cur
  | '{' => s.readBrace cur
  | '.' => s.push (.charClass (dot s.modes)) cur
  | '^' => s.push (.look (if s.modes.multiLine then .startLine else .startText)) cur
  | '$' => s.push (.look (if s.modes.multiLine then .endLine else .endText)) cur
  | c =>
    if c ∈ ['*', '+', '?'] then .error ⟨.missingRepeatArgument, s.cur.pos, s.cur.pos + 1⟩
    else s.push (literal s.modes c) cur

/-- What comes of a state: another one, or the whole expression at the end of the pattern. -/
inductive Step where
  | next (s : State)
  | finished (e : Expr)

/-- Reads one item, an opening or closing parenthesis, or a bar. -/
def State.step (o : ParserOptions) (s : State) : Except Fault Step :=
  match s.cur.next? with
  | some (c, cur) =>
    match s.read o c cur with
    | .error fault => .error fault
    | .ok next => .ok (.next next)
  | none =>
    match s.groups with
    | [] => .ok (.finished s.body)
    | g :: _ => .error ⟨.missingParen, g.start, s.cur.pos⟩

theorem State.enter_eq_ok {o : ParserOptions} {s next : State} (h : s.enter o = .ok next) :
    s.depth < o.nestLimit ∧ next = { s with depth := s.depth + 1 } := by
  unfold State.enter at h
  split at h
  · cases h
  · next hle =>
    cases h
    exact ⟨Nat.not_lt.mp hle, rfl⟩

theorem reaches_push {s next : State} {e : Expr} {cur : Cursor} (h : s.push e cur = .ok next) :
    cur.Reaches next.cur := by
  unfold State.push at h
  split at h
  · cases h
  · cases h
    exact reaches_quantify ‹_›

theorem reaches_readQuoted {s next : State} {cur : Cursor} (h : s.readQuoted cur = .ok next) :
    cur.Reaches next.cur := by
  unfold State.readQuoted at h
  dsimp only at h
  split at h
  · cases h
    exact Cursor.reaches_drop ..
  · exact (Cursor.reaches_drop ..).trans (reaches_push h)

theorem reaches_readEscape {o : ParserOptions} {modes : Modes} {start : Nat} {cur after : Cursor}
    {e : Expr} (h : readEscape o modes start cur = .ok (e, after)) : cur.Reaches after := by
  unfold readEscape at h
  split at h
  · cases h
  · split at h
    · cases h
      exact Cursor.reaches_next ‹_›
    · split at h
      · split at h
        · cases h
        · cases h
          exact (Escape.passes_readClass ‹_›).reaches
      · split at h
        · cases h
        · cases h
          exact (Escape.passes_readChar ‹_›).reaches

theorem reaches_openGroup {o : ParserOptions} {s next : State} {cur : Cursor}
    (h : s.openGroup o cur = .ok next) : cur.Reaches next.cur := by
  unfold State.openGroup at h
  split at h
  · cases h
  · split at h <;> cases h <;> exact Group.reaches_readOpening ‹_›

theorem reaches_closeGroup {s next : State} {cur : Cursor} (h : s.closeGroup cur = .ok next) :
    cur.Reaches next.cur := by
  unfold State.closeGroup at h
  split at h
  · cases h
  · exact reaches_push h

theorem reaches_readBracket {o : ParserOptions} {s next : State} {cur : Cursor}
    (h : s.readBracket o cur = .ok next) : cur.Reaches next.cur := by
  unfold State.readBracket at h
  split at h
  · cases h
  · split at h
    · cases h
    · exact (Bracket.reaches_readClass ‹_›).trans (reaches_push h)

theorem reaches_readBackslash {o : ParserOptions} {s next : State} {cur : Cursor}
    (h : s.readBackslash o cur = .ok next) : cur.Reaches next.cur := by
  unfold State.readBackslash at h
  split at h
  · exact (Cursor.reaches_next ‹_›).trans (reaches_readQuoted h)
  · split at h
    · cases h
    · exact (reaches_readEscape ‹_›).trans (reaches_push h)

theorem reaches_readBrace {s next : State} {cur : Cursor} (h : s.readBrace cur = .ok next) :
    cur.Reaches next.cur := by
  unfold State.readBrace at h
  split at h
  · cases h
  · exact reaches_push h

theorem reaches_read {o : ParserOptions} {s next : State} {c : Char} {cur : Cursor}
    (h : s.read o c cur = .ok next) : cur.Reaches next.cur := by
  unfold State.read at h
  split at h
  · cases h; rfl
  · exact reaches_closeGroup h
  · exact reaches_openGroup h
  · exact reaches_readBracket h
  · exact reaches_readBackslash h
  · exact reaches_readBrace h
  · exact reaches_push h
  · exact reaches_push h
  · exact reaches_push h
  · split at h
    · cases h
    · exact reaches_push h

/-- Every step reads at least one character. -/
theorem passes_step {o : ParserOptions} {s next : State} (h : s.step o = .ok (.next next)) :
    s.cur.Passes next.cur := by
  unfold State.step at h
  split at h
  · next c cur hnext =>
    split at h
    · cases h
    · next hread =>
      cases h
      exact ⟨c, cur, hnext, reaches_read hread⟩
  · split at h <;> cases h

/-- Reads from a state to the end of the pattern. -/
def State.run (o : ParserOptions) (s : State) : Except Fault Expr :=
  match _hstep : s.step o with
  | .error fault => .error fault
  | .ok (.finished e) => .ok e
  | .ok (.next next) => next.run o
termination_by s.cur.rest.length
decreasing_by exact (passes_step _hstep).length_lt

end Parser

/-- The fault together with the text that it is about. -/
def Fault.inPattern (fault : Fault) (pattern : String) : SyntaxError where
  toFault := fault
  fragment := (Utf8.slice? pattern.toUTF8 fault.start fault.stop).getD pattern

/-- The expression that a pattern stands for. -/
def Expr.parse (o : ParserOptions) (pattern : String) : Except SyntaxError Expr :=
  ((Parser.State.initial o.modes pattern.toList).run o).mapError (·.inPattern pattern)

end LinearRegex
