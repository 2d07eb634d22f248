import LinearRegex.Search.Loop
import LinearRegex.Search.Step

/-!
# Searching by backtracking

The paths of a program are followed one after the other, the preferred ones first.  No pair of an
instruction and a position is visited twice, not even from different starts: what did not lead to a
match before will not do so again.  A bit for every pair is kept, so only small programs and short
haystacks are searched this way.

The memory is kept from one search to the next.  The marks and the slots are made anew for every
search, but the tasks are not: a search that ends before it has carried them all out has to remove
them.
-/

namespace LinearRegex
namespace Backtrack

/-- The largest number of pairs. -/
def maxPairs : Nat := 256 * 1024

/-- The largest program. -/
def maxProgramSize : Nat := 500

/-- A program of the given size can be searched for in `length` bytes. -/
def fits (size length : Nat) : Bool :=
  size ≤ maxProgramSize && size * (length + 1) ≤ maxPairs

/-- The program or the haystack is too large. -/
structure TooBig where
  size : Nat
  length : Nat
deriving DecidableEq

/-- The refusal in words. -/
def TooBig.message (e : TooBig) : String :=
  "backtracker budget exceeded: " ++ toString e.size ++ " instructions, " ++ toString e.length ++
    " bytes"

/-- What is kept from one search to the next. -/
structure Memory where
  /-- What has been put off. -/
  tasks : List (Task (Nat × Nat)) := []
  /-- The pairs that have been visited. -/
  seen : Marks := Marks.blank 0
  /-- The slots of the path that is being followed. -/
  slots : Slots := #[]

/-- Where a search is. -/
inductive Phase where
  /-- A match may start at `pos` or behind it. -/
  | seek (pos : Nat)
  /-- The paths from a start are followed, and have led to `best?`, the first of the longest
  matches.  Without one, the search goes on at `next`. -/
  | follow (next : Nat) (best? : Option Slots)

/-- A search on its way. -/
structure Config extends Memory where
  phase : Phase

/-- The number of an instruction and a position. -/
def key (input : Input) (i pos : Nat) : Nat :=
  i * (input.length + 1) + (pos - input.start)

/-- A match that ends behind `best?` is better. -/
def better (best? : Option Slots) (slots : Slots) : Bool :=
  match best? with
  | none => true
  | some best => best.stop < slots.stop

/-- A match of `p` can start at `pos`, as far as the byte there tells. -/
def mayStartAt (p : Program) (h : ByteArray) (pos : Nat) : Bool :=
  Utf8.isBoundary h pos && p.firstBytes?.all (·.containsAt h pos)

/-- What a step of a search comes to. -/
abbrev Outcome := Loop.Step Config (Option Slots × Memory)

/-- Starts a path at `pos`, or passes over it. -/
def seek (p : Program) (input : Input) (pos : Nat) (c : Config) : Outcome :=
  if pos ≤ input.haystack.size ∧ !(input.anchoredFor p && input.start < pos) then
    if mayStartAt p input.haystack pos then
      .next
        { c with
          phase := .follow (pos + 1) none
          tasks := .visit (0, pos) :: c.tasks
          slots := Slots.blank c.slots.size }
    else .next { c with phase := .seek (pos + 1) }
  else .done (none, c.toMemory)

/-- Takes the visit to `(i, pos)` off the tasks, and marks the pair for good. -/
def Config.enter (input : Input) (i pos : Nat) (rest : List (Task (Nat × Nat))) (c : Config) :
    Config :=
  { c with tasks := rest, seen := c.seen.mark (key input i pos) }

/-- Carries out instruction `i` at `pos`.  The preferred match ends the search, unless the longest
one is asked for. -/
def execute (p : Program) (input : Input) (next : Nat) (best? : Option Slots) (i pos : Nat)
    (c : Config) : Outcome :=
  match p.instrs[i]? with
  | none => .next c
  | some .accept =>
    if input.mayEndAt pos then
      if p.longest then
        .next
          { c with phase := .follow next (if better best? c.slots then some c.slots else best?) }
      else .done (some c.slots, { c.toMemory with tasks := [] })
    else .next c
  | some instr =>
    .next
      { c with
        tasks := Task.after c.slots instr (instr.successors input.haystack pos) ++ c.tasks
        slots := instr.store c.slots pos }

/-- Carries out a task.  A visit to a pair that is marked leads nowhere. -/
def follow (p : Program) (input : Input) (next : Nat) (best? : Option Slots) (c : Config) :
    Outcome :=
  match c.tasks with
  | [] =>
    if best?.isSome then .done (best?, c.toMemory)
    else .next { c with phase := .seek next }
  | .restore slot old :: rest => .next { c with tasks := rest, slots := c.slots.store slot old }
  | .visit (i, pos) :: rest =>
    if c.seen.isFree (key input i pos) then
      execute p input next best? i pos (c.enter input i pos rest)
    else .next { c with tasks := rest }

/-- One step of a search. -/
def step (p : Program) (input : Input) (c : Config) : Outcome :=
  match c.phase with
  | .seek pos => seek p input pos c
  | .follow next best? => follow p input next best? c

/-- The positions that are left. -/
def Phase.bound (input : Input) : Phase → Nat
  | seek pos => 3 * (input.haystack.size + 1 - pos) + 1
  | follow next _ => 3 * (input.haystack.size + 1 - next) + 2

/-- The tasks and the positions that are left, and two tasks for every mark that can be made. -/
def Config.bound (input : Input) (c : Config) : Nat :=
  2 * c.seen.free + c.tasks.length + c.phase.bound input

theorem bound_seek_lt {p : Program} {input : Input} {pos : Nat} {c : Config}
    (hphase : c.phase = .seek pos) :
    (seek p input pos c).Preserves (·.bound input < c.bound input) fun _ => True := by
  fun_cases seek p input pos c with
  | case1 hin hmay =>
    have hle := hin.1
    simp only [Loop.Step.Preserves, Config.bound, hphase, Phase.bound, List.length_cons]
    omega
  | case2 hin hmay =>
    have hle := hin.1
    simp only [Loop.Step.Preserves, Config.bound, hphase, Phase.bound]
    omega
  | case3 => trivial

/-- An instruction leaves two tasks at most. -/
theorem bound_execute_le {p : Program} {input : Input} {next i pos : Nat} {best? : Option Slots}
    {c : Config} (hphase : c.phase = .follow next best?) :
    (execute p input next best? i pos c).Preserves (·.bound input ≤ c.bound input + 2)
      fun _ => True := by
  fun_cases execute p input next best? i pos c with
  | case1 => exact Nat.le_add_right _ 2
  | case2 =>
    simp only [Loop.Step.Preserves, Config.bound, hphase, Phase.bound]
    exact Nat.le_add_right _ 2
  | case3 => trivial
  | case4 => exact Nat.le_add_right _ 2
  | case5 instr =>
    have hafter := Task.length_after_successors_le input.haystack pos c.slots instr
    simp only [Loop.Step.Preserves, Config.bound, List.length_append]
    omega

theorem bound_follow_lt {p : Program} {input : Input} {next : Nat} {best? : Option Slots}
    {c : Config} (hphase : c.phase = .follow next best?) :
    (follow p input next best? c).Preserves (·.bound input < c.bound input) fun _ => True := by
  fun_cases follow p input next best? c with
  | case1 => trivial
  | case2 =>
    simp only [Loop.Step.Preserves, Config.bound, hphase, Phase.bound]
    omega
  | case3 slot old rest htasks =>
    simp only [Loop.Step.Preserves, Config.bound, htasks, List.length_cons]
    omega
  | case4 i pos rest htasks hfree =>
    have hmark := Marks.free_mark hfree
    have hphase' : (c.enter input i pos rest).phase = .follow next best? := hphase
    refine (bound_execute_le hphase').mono (fun c' hle => ?_) fun _ h => h
    simp only [Config.bound, Config.enter, htasks, List.length_cons] at hle ⊢
    omega
  | case5 i pos rest htasks hfree =>
    simp only [Loop.Step.Preserves, Config.bound, htasks, List.length_cons]
    omega

/-- The steps of a search. -/
def loop (p : Program) (input : Input) : Loop Config (Option Slots × Memory) where
  step := step p input
  bound := Config.bound input
  bound_lt c := by
    unfold step
    split
    · next hphase => exact bound_seek_lt hphase
    · next hphase => exact bound_follow_lt hphase

/-- A search that begins with the given memory. -/
def begin (p : Program) (input : Input) (m : Memory) : Config where
  tasks := m.tasks
  seen := Marks.blank (p.size * (input.length + 1))
  slots := Slots.blank (input.slotsFor p)
  phase := .seek input.start

/-- The first match, if the program and the haystack are small enough. -/
def search (p : Program) (input : Input) (m : Memory) :
    Except TooBig (Option Captures) × Memory :=
  if input.haystack.size < input.start then (.ok none, m)
  else if fits p.size input.length then
    let (slots?, m) := (loop p input).run (begin p input m)
    (.ok (slots?.map (Captures.ofSlots p.slotCount)), m)
  else (.error ⟨p.size, input.length⟩, m)

end Backtrack

namespace Search

/-- The first match, found with a memory of its own. -/
def backtrack (p : Program) (input : Input) : Except Backtrack.TooBig (Option Captures) :=
  (Backtrack.search p input {}).1

end Search
end LinearRegex
