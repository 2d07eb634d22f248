import LinearRegex.CharSet.Sequences
import LinearRegex.Program.Instr

/-!
# Tries of byte ranges

A set of characters is matched byte by byte, by a trie whose paths are the byte sequences of the
set.  Every node of the trie becomes one instruction, placed before those of the nodes below it.
-/

namespace LinearRegex

/-- The edges of a node, in ascending order.  An edge either completes a character or leads to
another node. -/
inductive ByteTrie where
  | nil
  | last (r : ByteRange) (rest : ByteTrie)
  | step (r : ByteRange) (child rest : ByteTrie)
deriving DecidableEq

namespace ByteTrie

/-- The trie of one sequence. -/
def path : List ByteRange → ByteTrie
  | [] => nil
  | [r] => last r nil
  | r :: s :: more => step r (path (s :: more)) nil

/-- Adds a sequence behind all others.  As far as it agrees with the last of them, it shares its
nodes. -/
def insert (seq : List ByteRange) : ByteTrie → ByteTrie
  | nil => path seq
  | last r rest => last r (rest.insert seq)
  | step r child nil =>
    match seq with
    | s :: next :: more =>
      if r = s then step r (child.insert (next :: more)) nil
      else step r child (path seq)
    | _ => step r child (path seq)
  | step r child rest => step r child (rest.insert seq)

/-- The trie of the byte sequences of a set. -/
def ofSet (s : CharSet) : ByteTrie :=
  s.sequences.foldl (fun t seq => t.insert seq) nil

/-- The number of nodes below a node. -/
def inner : ByteTrie → Nat
  | nil => 0
  | last _ rest => rest.inner
  | step _ child rest => 1 + child.inner + rest.inner

/-- The number of nodes. -/
def size (t : ByteTrie) : Nat :=
  1 + t.inner

/-- The transitions of a node whose children are placed from `base` on.  An edge that completes a
character leads to `next`. -/
def transitions (next : Nat) (base : Nat) : ByteTrie → List Transition
  | nil => []
  | last r rest => ⟨r.lo, r.hi, next⟩ :: rest.transitions next base
  | step r child rest => ⟨r.lo, r.hi, base⟩ :: rest.transitions next (base + child.size)

/-- The instruction that consumes a byte as one of the given transitions says. -/
def consume : List Transition → Instr
  | [t] => .byteRange t
  | ts => .sparse ts

/-- The instructions of the nodes below a node, placed from `base` on. -/
def childrenCode (next : Nat) (base : Nat) : ByteTrie → List Instr
  | nil => []
  | last _ rest => rest.childrenCode next base
  | step _ child rest =>
    consume (child.transitions next (base + 1)) ::
      (child.childrenCode next (base + 1) ++ rest.childrenCode next (base + child.size))

/-- The instructions of a trie placed at `base`, which go on at `next` behind a character. -/
def code (t : ByteTrie) (base next : Nat) : List Instr :=
  consume (t.transitions next (base + 1)) :: t.childrenCode next (base + 1)

theorem length_childrenCode (t : ByteTrie) (next base : Nat) :
    (t.childrenCode next base).length = t.inner := by
  induction t generalizing base with
  | nil => rfl
  | last r rest ih => exact ih base
  | step r child rest ihChild ihRest =>
    simp only [childrenCode, List.length_cons, List.length_append, ihChild, ihRest, inner]
    omega

/-- A trie has as many instructions as nodes. -/
theorem length_code (t : ByteTrie) (base next : Nat) : (t.code base next).length = t.size := by
  rw [code, List.length_cons, length_childrenCode, size, Nat.add_comm]

end ByteTrie
end LinearRegex
