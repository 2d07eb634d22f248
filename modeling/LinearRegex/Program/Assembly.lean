import LinearRegex.Program.Code

/-!
# Assembling

A program is assembled instruction by instruction, as long as it has fewer instructions than
allowed.  An instruction that goes on at one which is still to come is added with a hole instead of
a target.  The holes of a fragment are those through which it is left.  Assembling stops at a hole
that does not fit the instruction it is in.
-/

namespace LinearRegex

/-- A target of an instruction that is still unknown.  Instructions are named by their index. -/
inductive Hole where
  /-- The only target of an instruction. -/
  | next (index : Nat)
  | first (index : Nat)
  | second (index : Nat)
  /-- The target of the transition with the given number. -/
  | edge (index number : Nat)

/-- Instructions that are entered at one place, and left through holes. -/
structure Fragment where
  start : Nat
  holes : List Hole

/-- There are more instructions than allowed. -/
structure TooLarge where
  limit : Nat
deriving DecidableEq

namespace Assembly

/-- Why assembling has stopped. -/
inductive Refusal where
  | tooLarge
  /-- The instruction does not have the hole. -/
  | misfit (hole : Hole)

/-- The target that stands in a hole. -/
def pending : Nat :=
  UInt64.size - 1

/-- The instruction with the hole. -/
def holeIndex : Hole → Nat
  | .next index | .first index | .second index | .edge index _ => index

/-- An instruction whose hole has got its target, if it has the hole. -/
def fill? (target : Nat) : Hole → Instr → Option Instr
  | .next _, .byteRange t => some (.byteRange { t with next := target })
  | .next _, .save slot _ => some (.save slot target)
  | .next _, .look l _ => some (.look l target)
  | .next _, .nop _ => some (.nop target)
  | .first _, .split _ second => some (.split target second)
  | .second _, .split first _ => some (.split first target)
  | .edge _ 0, .byteRange t => some (.byteRange { t with next := target })
  | .edge _ number, .sparse ts =>
    if number < ts.length then
      some (.sparse (ts.modify number fun t => { t with next := target }))
    else none
  | _, _ => none

/-- Gives a hole its target. -/
def patchHole (target : Nat) (code : Array Instr) (hole : Hole) : Except Refusal (Array Instr) :=
  match code[holeIndex hole]?.bind (fill? target hole) with
  | some instr => .ok (code.setIfInBounds (holeIndex hole) instr)
  | none => .error (.misfit hole)

/-- Gives holes their target. -/
def patch (holes : List Hole) (target : Nat) (code : Array Instr) :
    Except Refusal (Array Instr) :=
  holes.foldlM (patchHole target) code

/-- The hole through which a split enters the body of a loop or an option. -/
def enterHole (greedy : Bool) (index : Nat) : Hole :=
  if greedy then .first index else .second index

/-- The hole through which a split passes the body of a loop or an option. -/
def exitHole (greedy : Bool) (index : Nat) : Hole :=
  if greedy then .second index else .first index

variable (limit : Nat)

/-- Adds an instruction if one more is allowed, and returns its index. -/
def emit (instr : Instr) (code : Array Instr) : Except Refusal (Nat × Array Instr) :=
  if limit ≤ code.size then .error .tooLarge
  else
    let code := code.push instr
    .ok (code.size - 1, code)

/-- Adds an instruction with one target. -/
def emitNext (instr : Instr) (code : Array Instr) : Except Refusal (Fragment × Array Instr) := do
  let (index, code) ← emit limit instr code
  return (⟨index, [.next index]⟩, code)

/-- Adds bytes that follow the one at `last`, and returns the index of the last of them. -/
def emitBytes (last : Nat) (bs : List UInt8) (code : Array Instr) :
    Except Refusal (Nat × Array Instr) :=
  match bs with
  | [] => return (last, code)
  | b :: bs => do
    let (index, code) ← emit limit (.byteRange ⟨b, b, pending⟩) code
    emitBytes index bs (← patch [.next last] index code)

/-- Adds the nodes below the one at `node`, from its edge with the given number on.  Returns its
transitions from there on, and the holes of edges that complete a character. -/
def emitEdges (node : Nat) (t : ByteTrie) (number : Nat) (code : Array Instr) :
    Except Refusal (List Transition × List Hole × Array Instr) :=
  match t with
  | .nil => return ([], [], code)
  | .last r rest => do
    let (ts, holes, code) ← emitEdges node rest (number + 1) code
    return (⟨r.lo, r.hi, pending⟩ :: ts, .edge node number :: holes, code)
  | .step r child rest => do
    let (entry, code) ← emit limit .fail code
    let (below, childHoles, code) ← emitEdges entry child 0 code
    let (ts, holes, code) ← emitEdges node rest (number + 1)
      (code.setIfInBounds entry (ByteTrie.consume below))
    return (⟨r.lo, r.hi, entry⟩ :: ts, childHoles ++ holes, code)

/-- Adds a trie.  The first instruction makes way for that of the root when all nodes below it are
there. -/
def emitTrie (t : ByteTrie) (code : Array Instr) : Except Refusal (Fragment × Array Instr) := do
  let (root, code) ← emit limit .fail code
  let (ts, holes, code) ← emitEdges limit root t 0 code
  return (⟨root, holes⟩, code.setIfInBounds root (ByteTrie.consume ts))

/-- Adds copies of what `body` adds, one behind the other. -/
def emitTimes (body : Array Instr → Except Refusal (Fragment × Array Instr)) (more : Nat)
    (code : Array Instr) : Except Refusal (Fragment × Array Instr) :=
  match more with
  | 0 => body code
  | more + 1 => do
    let (copy, code) ← body code
    let (rest, code) ← emitTimes body more code
    return (⟨copy.start, rest.holes⟩, ← patch copy.holes rest.start code)

/-- Adds a split and what `body` adds, which the split enters. -/
def emitSplit (greedy : Bool) (body : Array Instr → Except Refusal (Fragment × Array Instr))
    (code : Array Instr) : Except Refusal (Nat × Fragment × Array Instr) := do
  let (split, code) ← emit limit (.split pending pending) code
  let (inside, code) ← body code
  return (split, inside, ← patch [enterHole greedy split] inside.start code)

/-- Adds copies of what `body` adds, each inside the option that the one before it goes on with. -/
def emitAtMost (greedy : Bool) (body : Array Instr → Except Refusal (Fragment × Array Instr))
    (more : Nat) (code : Array Instr) : Except Refusal (Fragment × Array Instr) :=
  match more with
  | 0 => do
    let (split, copy, code) ← emitSplit limit greedy body code
    return (⟨split, exitHole greedy split :: copy.holes⟩, code)
  | more + 1 => do
    let (split, copy, code) ← emitSplit limit greedy body code
    let (rest, code) ← emitAtMost greedy body more code
    return (⟨split, exitHole greedy split :: rest.holes⟩, ← patch copy.holes rest.start code)

/-- Adds the block of an expression. -/
def emitExpr (e : ByteExpr) (code : Array Instr) : Except Refusal (Fragment × Array Instr) :=
  match e with
  | .fail => do
    let (index, code) ← emit limit .fail code
    return (⟨index, []⟩, code)
  | .bytes [] => emitNext limit (.nop pending) code
  | .bytes (b :: bs) => do
    let (first, code) ← emit limit (.byteRange ⟨b, b, pending⟩) code
    let (last, code) ← emitBytes limit first bs code
    return (⟨first, [.next last]⟩, code)
  | .char t => emitTrie limit t code
  | .look l => emitNext limit (.look l pending) code
  | .capture index body => do
    let (opening, code) ← emitNext limit (.save (2 * index) pending) code
    let (inside, code) ← emitExpr body code
    let (closing, code) ← emitNext limit (.save (2 * index + 1) pending)
      (← patch opening.holes inside.start code)
    return (⟨opening.start, closing.holes⟩, ← patch inside.holes closing.start code)
  | .seq first second => do
    let (front, code) ← emitExpr first code
    let (back, code) ← emitExpr second code
    return (⟨front.start, back.holes⟩, ← patch front.holes back.start code)
  | .choice first second => do
    let (split, preferred, code) ← emitSplit limit true (emitExpr first) code
    let (other, code) ← emitExpr second code
    return (⟨split, preferred.holes ++ other.holes⟩,
      ← patch [exitHole true split] other.start code)
  | .times more body => emitTimes (emitExpr body) more code
  | .atMost more greedy body => emitAtMost limit greedy (emitExpr body) more code
  | .star greedy body => do
    let (split, inside, code) ← emitSplit limit greedy (emitExpr body) code
    return (⟨split, [exitHole greedy split]⟩, ← patch inside.holes split code)
  | .plus greedy body => do
    let (inside, code) ← emitExpr body code
    let (split, code) ← emit limit (.split pending pending) code
    let code ← patch inside.holes split code
    return (⟨inside.start, [exitHole greedy split]⟩,
      ← patch [enterHole greedy split] inside.start code)

/-- The instructions of a program: the expression as group 0, and the end of the match. -/
def emitProgram (e : ByteExpr) : Except Refusal (Array Instr) := do
  let (whole, code) ← emitExpr limit (.capture 0 e) #[]
  let (accept, code) ← emit limit .accept code
  patch whole.holes accept code

/-- The instructions of a program.  Every hole fits the instruction it is in, so that only the limit
can stand in the way. -/
def assemble (e : ByteExpr) : Except TooLarge (Array Instr) :=
  (emitProgram limit e).mapError fun _ => ⟨limit⟩

end Assembly
end LinearRegex
