import LinearRegex.Search.Lockstep
import LinearRegex.Storage.Threads

/-!
# Searching in lockstep in storage

The search of `LinearRegex.Search.Lockstep`, with all that it keeps in memory from one search to the
next: two sets of threads with their tables of slots, the tasks that are put off, and the slots of
the path that is being followed.
-/

namespace LinearRegex
namespace Storage

/-- What following a path works with. -/
structure Walk where
  tasks : List (Task Nat) := []
  /-- The slots of the path that is being followed. -/
  slots : Slots := Slots.blank 2
  /-- The number of visits to instructions and threads in the last search. -/
  steps : Nat := 0

/-- A walk that has not begun, with `stride` slots. -/
def Walk.blank (stride : Nat) : Walk where
  slots := Slots.blank stride

/-- Carries out the tasks at `pos`.  Every instruction that is reached without consuming a byte
becomes a thread, unless there is one already; none is followed twice. -/
def close (p : Program) (h : ByteArray) (pos : Nat) (w : Walk) (set : ThreadSet) :
    Walk × ThreadSet :=
  match w with
  | ⟨[], slots, steps⟩ => (⟨[], slots, steps⟩, set)
  | ⟨.restore slot old :: rest, slots, steps⟩ =>
    close p h pos ⟨rest, slots.store slot old, steps⟩ set
  | ⟨.visit i :: rest, slots, steps⟩ =>
    if _hfree : set.marks.isFree i then
      match p.instrs[i]? with
      | none => close p h pos ⟨rest, slots, steps⟩ set
      | some instr =>
        close p h pos
          ⟨Task.after slots instr (instr.targetsAt h pos) ++ rest, instr.store slots pos, steps + 1⟩
          (set.visit i instr slots)
    else close p h pos ⟨rest, slots, steps⟩ set
termination_by 2 * set.marks.free + w.tasks.length
decreasing_by
  · simp
  · simp
  · rw [ThreadSet.marks_visit]
    exact Marks.measure_mark _hfree _ (Task.length_after_targets_le ..) _ rest
  · simp

/-- Follows the path that has come to instruction `i`. -/
def follow (p : Program) (h : ByteArray) (pos i : Nat) (w : Walk) (set : ThreadSet) :
    Walk × ThreadSet :=
  close p h pos { w with tasks := .visit i :: w.tasks } set

/-- The outcome of the threads at a position. -/
structure Round where
  matched? : Option Slots
  walk : Walk
  /-- The threads at the next position. -/
  next : ThreadSet

/-- Lets the threads at the given instructions, whose slots are in `rows`, consume the byte at
`pos`. -/
def advance (p : Program) (input : Input) (pos : Nat) (rows : SlotTable) :
    List Nat → Round → Round
  | [], r => r
  | i :: is, r =>
    let r := { r with walk.steps := r.walk.steps + 1 }
    match p.instrs[i]? with
    | some .accept =>
      if input.mayEndAt pos then
        if p.longest then
          advance p input pos rows is
            { r with
              matched? := if Lockstep.better r.matched? (rows.row i) then some (rows.row i)
                else r.matched? }
        else { r with matched? := some (rows.row i) }
      else advance p input pos rows is r
    | some instr =>
      match instr.nextAt? input.haystack pos with
      | some next =>
        if p.longest && r.matched?.any (·.start < (rows.row i).start) then
          advance p input pos rows is r
        else
          let c := follow p input.haystack (pos + 1) next { r.walk with slots := rows.row i } r.next
          advance p input pos rows is { r with walk := c.1, next := c.2 }
      | none => advance p input pos rows is r
    | none => advance p input pos rows is r

/-- What is kept from one search in lockstep to the next. -/
structure Machine where
  threads : ThreadSet := {}
  next : ThreadSet := {}
  walk : Walk := {}

/-- Where the search goes on at `pos`: at `pos` while there are threads, and otherwise where a new
one can start.  `none` if the search is over. -/
def resume? (p : Program) (input : Input) (threads : ThreadSet) (matched? : Option Slots)
    (pos : Nat) : Option Nat :=
  if threads.items.isEmpty then
    if matched?.isSome || (input.anchoredFor p && input.start < pos) then none
    else if input.anchoredFor p then some pos
    else Lockstep.candidate? p input.haystack pos
  else some pos

theorem resume?_eq_of_isEmpty {p : Program} {input : Input} {s : ThreadSet} {a : Lockstep.ThreadSet}
    (h : s.items.isEmpty = a.threads.isEmpty) (matched? : Option Slots) (pos : Nat) :
    resume? p input s matched? pos = Lockstep.resume? p input a matched? pos := by
  rw [resume?, Lockstep.resume?, h]

/-- Adds the thread that starts at `pos`, if one may start there. -/
def start (p : Program) (input : Input) (matched? : Option Slots) (pos : Nat) (m : Machine) :
    Machine :=
  if Lockstep.mayStartAt p input matched? pos then
    let c := follow p input.haystack pos 0
      { m.walk with slots := Slots.blank m.walk.slots.size } m.threads
    { m with walk := c.1, threads := c.2 }
  else m

theorem le_of_resume? {p : Program} {input : Input} {threads : ThreadSet} {matched? : Option Slots}
    {pos i : Nat} (hi : resume? p input threads matched? pos = some i) : pos ≤ i := by
  rw [resume?_eq_of_isEmpty (a := ⟨threads.items.map (⟨·, #[]⟩), threads.marks⟩)
    (by simp [Array.isEmpty])] at hi
  exact Lockstep.le_of_resume? hi

/-- A search on its way. -/
structure Config where
  /-- The match found so far. -/
  matched? : Option Slots
  pos : Nat
  machine : Machine

/-- One step of a search. -/
def step (p : Program) (input : Input) (c : Config) : Loop.Step Config (Option Slots × Machine) :=
  match resume? p input c.machine.threads c.matched? c.pos with
  | none => .done (c.matched?, c.machine)
  | some pos =>
    let m := start p input c.matched? pos c.machine
    let r := advance p input pos m.threads.rows m.threads.items.toList ⟨c.matched?, m.walk, m.next⟩
    if pos < input.haystack.size then
      .next ⟨r.matched?, pos + 1, ⟨r.next, m.threads.clear, r.walk⟩⟩
    else .done (r.matched?, ⟨m.threads, r.next, r.walk⟩)

/-- The steps of a search. -/
def loop (p : Program) (input : Input) : Loop Config (Option Slots × Machine) where
  step := step p input
  bound c := input.haystack.size + 1 - c.pos
  bound_lt c := by
    fun_cases step p input c with
    | case1 => trivial
    | case2 pos hresume m r hlt =>
      have := le_of_resume? hresume
      show input.haystack.size + 1 - (pos + 1) < input.haystack.size + 1 - c.pos
      omega
    | case3 => trivial

/-- A search that begins with what another one has left. -/
def begin (p : Program) (input : Input) (m : Machine) : Config where
  matched? := none
  pos := input.start
  machine :=
    { threads := m.threads.resize p.size (input.slotsFor p)
      next := m.next.resize p.size (input.slotsFor p)
      walk := Walk.blank (input.slotsFor p) }

/-- The first match. -/
def lockstep (p : Program) (input : Input) (m : Machine) : Option Captures × Machine :=
  if input.haystack.size < input.start then (none, m)
  else
    let (slots?, m) := (loop p input).run (begin p input m)
    (slots?.map (Captures.ofSlots p.slotCount),
      { m with threads := m.threads.clear, next := m.next.clear })

end Storage
end LinearRegex
