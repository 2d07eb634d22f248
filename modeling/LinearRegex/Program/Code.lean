import LinearRegex.Program.ByteExpr

/-!
# The instructions of an expression

Every expression over bytes becomes a block of instructions that is entered at its first one and
left for a single instruction outside of it.  As the size of a block is known beforehand, every
instruction is written with its final targets.
-/

namespace LinearRegex
namespace ByteExpr

/-- A split that enters a body at `body` or leaves for `next`.  A greedy one prefers to enter. -/
def loop (greedy : Bool) (body next : Nat) : Instr :=
  if greedy then .split body next else .split next body

/-- Bytes that follow each other, from `base` on. -/
def bytesCode (base next : Nat) : List UInt8 → List Instr
  | [] => [.nop next]
  | [b] => [.byteRange ⟨b, b, next⟩]
  | b :: bs => .byteRange ⟨b, b, base + 1⟩ :: bytesCode (base + 1) next bs

/-- Copies of a block of `size` instructions that follow each other.  `block base next` is the
block at `base` that is left for `next`. -/
def timesCode (size : Nat) (block : Nat → Nat → List Instr) (base next : Nat) : Nat → List Instr
  | 0 => block base next
  | more + 1 => block base (base + size) ++ timesCode size block (base + size) next more

/-- Copies of a block of `size` instructions, each inside the option that the one before it goes on
with. -/
def atMostCode (greedy : Bool) (size : Nat) (block : Nat → Nat → List Instr) (base next : Nat) :
    Nat → List Instr
  | 0 => loop greedy (base + 1) next :: block (base + 1) next
  | more + 1 =>
    loop greedy (base + 1) next ::
      (block (base + 1) (base + 1 + size) ++
        atMostCode greedy size block (base + 1 + size) next more)

/-- The block of an expression, placed at `base` and left for `next`. -/
def code : ByteExpr → (base next : Nat) → List Instr
  | fail, _, _ => [.fail]
  | bytes bs, base, next => bytesCode base next bs
  | char t, base, next => t.code base next
  | look l, _, next => [.look l next]
  | capture index body, base, next =>
    .save (2 * index) (base + 1) ::
      (body.code (base + 1) (base + 1 + body.size) ++ [.save (2 * index + 1) next])
  | seq first second, base, next =>
    first.code base (base + first.size) ++ second.code (base + first.size) next
  | choice first second, base, next =>
    .split (base + 1) (base + 1 + first.size) ::
      (first.code (base + 1) next ++ second.code (base + 1 + first.size) next)
  | times more body, base, next => timesCode body.size body.code base next more
  | atMost more greedy body, base, next => atMostCode greedy body.size body.code base next more
  | star greedy body, base, next => loop greedy (base + 1) next :: body.code (base + 1) base
  | plus greedy body, base, next =>
    body.code base (base + body.size) ++ [loop greedy base next]

theorem length_bytesCode (bs : List UInt8) (base next : Nat) :
    (bytesCode base next bs).length = max 1 bs.length := by
  induction bs generalizing base with
  | nil => rfl
  | cons b bs ih =>
    cases bs with
    | nil => rfl
    | cons c bs =>
      simp only [bytesCode, List.length_cons] at ih ⊢
      rw [ih]
      omega

theorem length_timesCode {size : Nat} {block : Nat → Nat → List Instr}
    (hblock : ∀ base next, (block base next).length = size) (more base next : Nat) :
    (timesCode size block base next more).length = (more + 1) * size := by
  induction more generalizing base with
  | zero => simp [timesCode, hblock]
  | succ more ih =>
    rw [timesCode, List.length_append, hblock, ih, Nat.succ_mul (more + 1), Nat.add_comm]

theorem length_atMostCode (greedy : Bool) {size : Nat} {block : Nat → Nat → List Instr}
    (hblock : ∀ base next, (block base next).length = size) (more base next : Nat) :
    (atMostCode greedy size block base next more).length = (more + 1) * (1 + size) := by
  induction more generalizing base with
  | zero => simp [atMostCode, hblock, Nat.add_comm]
  | succ more ih =>
    rw [atMostCode, List.length_cons, List.length_append, hblock, ih, Nat.succ_mul (more + 1)]
    omega

/-- The size of an expression is the number of its instructions. -/
theorem length_code (e : ByteExpr) (base next : Nat) : (e.code base next).length = e.size := by
  induction e generalizing base next with
  | fail | look _ => rfl
  | bytes bs => exact length_bytesCode bs base next
  | char t => exact t.length_code base next
  | capture index body ih => simp [code, size, ih]
  | seq first second ih₁ ih₂ => simp [code, size, ih₁, ih₂]
  | choice first second ih₁ ih₂ =>
    simp only [code, List.length_cons, List.length_append, ih₁, ih₂, size]
    omega
  | times more body ih => exact length_timesCode ih more base next
  | atMost more greedy body ih => exact length_atMostCode greedy ih more base next
  | star greedy body ih => simp [code, size, ih]
  | plus greedy body ih => simp [code, size, ih]

/-- The program of an expression: its block as group 0, and the end of the match. -/
def programCode (e : ByteExpr) : List Instr :=
  (capture 0 e).code 0 (e.size + 2) ++ [.accept]

/-- The number of instructions of the program of an expression. -/
def programSize (e : ByteExpr) : Nat :=
  e.size + 3

theorem length_programCode (e : ByteExpr) : e.programCode.length = e.programSize := by
  rw [programCode, List.length_append, length_code, size, programSize]
  rfl

end ByteExpr
end LinearRegex
