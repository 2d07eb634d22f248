import LinearRegex.Search.Loop
import LinearRegex.Search.Step

/-!
# Searching in lockstep

All paths of a program are followed at once, one byte of the haystack after the other.  A path is a
thread; of the threads at one instruction only the preferred one is kept, so the work for a byte is
bounded by the size of the program.  Threads are listed by preference.

The lists are reused by the next search, so that it need not allocate them.
-/

namespace LinearRegex
namespace Lockstep

/-- A path that has come to an instruction, and the slots it has stored. -/
structure Thread where
  index : Nat
  slots : Slots

/-- Threads by preference, and marks on their instructions. -/
structure ThreadSet where
  threads : Array Thread := #[]
  marks : Marks := Marks.blank 0

namespace ThreadSet

/-- Adds a thread behind all others. -/
def push (s : ThreadSet) (t : Thread) : ThreadSet :=
  ⟨s.threads.push t, s.marks.mark t.index⟩

/-- Removes all threads. -/
def clear (s : ThreadSet) : ThreadSet :=
  ⟨#[], s.threads.foldl (fun m t => m.unmark t.index) s.marks⟩

/-- Removes all threads, and makes room for those of a program of `size` instructions. -/
def prepare (s : ThreadSet) (size : Nat) : ThreadSet :=
  if s.marks.size = size then s.clear else ⟨#[], Marks.blank size⟩

end ThreadSet

/-- What the threads at a position are collected in. -/
structure Closure where
  /-- The slots of the path that is being followed. -/
  slots : Slots
  set : ThreadSet
  /-- The number of instructions visited so far. -/
  steps : Nat

/-- Carries out the tasks at `pos`.  Every instruction that is reached without consuming a byte
becomes a thread, unless there is one already; none is followed twice. -/
def close (p : Program) (h : ByteArray) (pos : Nat) (tasks : List (Task Nat)) (c : Closure) :
    Closure :=
  match tasks with
  | [] => c
  | .restore slot old :: rest => close p h pos rest { c with slots := c.slots.store slot old }
  | .visit i :: rest =>
    if _hfree : c.set.marks.isFree i then
      match p.instrs[i]? with
      | none => close p h pos rest c
      | some instr =>
        close p h pos (Task.after c.slots instr (instr.targetsAt h pos) ++ rest)
          { slots := instr.store c.slots pos
            set := c.set.push ⟨i, c.slots⟩
            steps := c.steps + 1 }
    else close p h pos rest c
termination_by 2 * c.set.marks.free + tasks.length
decreasing_by
  · simp
  · simp
  · exact Marks.measure_mark _hfree _ (Task.length_after_targets_le ..) _ rest
  · simp

/-- The outcome of the threads at a position. -/
structure Round where
  matched? : Option Slots
  /-- The threads at the next position. -/
  next : ThreadSet
  steps : Nat

/-- A match that starts before `best?`, or there and ends behind it, is longer. -/
def better (best? : Option Slots) (slots : Slots) : Bool :=
  match best? with
  | none => true
  | some best =>
    slots.start < best.start || (slots.start == best.start && best.stop < slots.stop)

/-- Lets the threads consume the byte at `pos`.  A thread that ends the match cuts off those behind
it, unless the longest match is asked for; then threads that started behind it are dropped. -/
def advance (p : Program) (input : Input) (pos : Nat) : List Thread → Round → Round
  | [], r => r
  | t :: ts, r =>
    let r := { r with steps := r.steps + 1 }
    match p.instrs[t.index]? with
    | some .accept =>
      if input.mayEndAt pos then
        if p.longest then
          advance p input pos ts
            { r with matched? := if better r.matched? t.slots then some t.slots else r.matched? }
        else { r with matched? := some t.slots }
      else advance p input pos ts r
    | some instr =>
      match instr.nextAt? input.haystack pos with
      | some next =>
        if p.longest && r.matched?.any (·.start < t.slots.start) then
          advance p input pos ts r
        else
          let c := close p input.haystack (pos + 1) [.visit next] ⟨t.slots, r.next, r.steps⟩
          advance p input pos ts { r with next := c.set, steps := c.steps }
      | none => advance p input pos ts r
    | none => advance p input pos ts r

/-- The first position from `pos` on where a match can start, as far as the summaries tell. -/
def candidate? (p : Program) (h : ByteArray) (pos : Nat) : Option Nat :=
  match p.literalPrefix?, p.firstBytes? with
  | some lit, _ => lit.find? h pos
  | none, some bytes => bytes.find? h pos
  | none, none => some pos

theorem le_of_candidate? {p : Program} {h : ByteArray} {pos i : Nat}
    (hi : candidate? p h pos = some i) : pos ≤ i := by
  unfold candidate? at hi
  split at hi
  · exact (Haystack.first?_eq_some hi).1
  · exact (Haystack.first?_eq_some hi).1
  · cases hi
    exact Nat.le_refl _

/-- Where the search goes on at `pos`: at `pos` while there are threads, and otherwise where a new
one can start.  `none` if the search is over. -/
def resume? (p : Program) (input : Input) (threads : ThreadSet) (matched? : Option Slots)
    (pos : Nat) : Option Nat :=
  if threads.threads.isEmpty then
    if matched?.isSome || (input.anchoredFor p && input.start < pos) then none
    else if input.anchoredFor p then some pos
    else candidate? p input.haystack pos
  else some pos

theorem le_of_resume? {p : Program} {input : Input} {threads : ThreadSet} {matched? : Option Slots}
    {pos i : Nat} (hi : resume? p input threads matched? pos = some i) : pos ≤ i := by
  unfold resume? at hi
  split at hi
  · split at hi
    · cases hi
    · split at hi
      · cases hi
        exact Nat.le_refl _
      · exact le_of_candidate? hi
  · cases hi
    exact Nat.le_refl _

/-- A match may start at `pos`. -/
def mayStartAt (p : Program) (input : Input) (matched? : Option Slots) (pos : Nat) : Bool :=
  matched?.isNone && (!input.anchoredFor p || pos == input.start) &&
    Utf8.isBoundary input.haystack pos

/-- What is kept from one search to the next. -/
structure Scratch where
  threads : ThreadSet := {}
  next : ThreadSet := {}
  /-- The number of visits to instructions and threads in the last search. -/
  steps : Nat := 0

/-- Adds the thread that starts at `pos`, if one may start there. -/
def start (p : Program) (input : Input) (matched? : Option Slots) (pos : Nat) (s : Scratch) :
    Scratch :=
  if mayStartAt p input matched? pos then
    let c := close p input.haystack pos [.visit 0]
      ⟨Slots.blank (input.slotsFor p), s.threads, s.steps⟩
    { s with threads := c.set, steps := c.steps }
  else s

/-- A search on its way. -/
structure Config where
  /-- The match found so far. -/
  matched? : Option Slots
  pos : Nat
  scratch : Scratch

/-- What a search does at a position. -/
structure Turn where
  pos : Nat
  /-- The threads at the position. -/
  threads : ThreadSet
  round : Round

/-- The turn of a search at its position, with the thread that starts there. -/
def turn (p : Program) (input : Input) (c : Config) : Turn :=
  let s := start p input c.matched? c.pos c.scratch
  ⟨c.pos, s.threads, advance p input c.pos s.threads.threads.toList ⟨c.matched?, s.next, s.steps⟩⟩

/-- The next turn of a search, where it goes on.  `none` if the search is over. -/
def turn? (p : Program) (input : Input) (c : Config) : Option Turn :=
  (resume? p input c.scratch.threads c.matched? c.pos).map fun pos => turn p input { c with pos }

/-- The search behind a turn. -/
def Turn.after (t : Turn) : Config :=
  ⟨t.round.matched?, t.pos + 1, ⟨t.round.next, t.threads.clear, t.round.steps⟩⟩

/-- What a search comes to that ends with a turn. -/
def Turn.result (t : Turn) : Option Slots × Scratch :=
  (t.round.matched?, ⟨t.threads, t.round.next, t.round.steps⟩)

/-- One step of a search. -/
def step (p : Program) (input : Input) (c : Config) : Loop.Step Config (Option Slots × Scratch) :=
  match turn? p input c with
  | none => .done (c.matched?, c.scratch)
  | some t => if t.pos < input.haystack.size then .next t.after else .done t.result

theorem turn?_eq_none_iff {p : Program} {input : Input} {c : Config} :
    turn? p input c = none ↔ resume? p input c.scratch.threads c.matched? c.pos = none :=
  Option.map_eq_none_iff

theorem turn?_eq_some_iff {p : Program} {input : Input} {c : Config} {t : Turn} :
    turn? p input c = some t ↔
      ∃ pos, resume? p input c.scratch.threads c.matched? c.pos = some pos ∧
        turn p input { c with pos } = t :=
  Option.map_eq_some_iff

/-- The steps of a search. -/
def loop (p : Program) (input : Input) : Loop Config (Option Slots × Scratch) where
  step := step p input
  bound c := input.haystack.size + 1 - c.pos
  bound_lt c := by
    fun_cases step p input c with
    | case1 => trivial
    | case2 t hturn hlt =>
      obtain ⟨pos, hresume, rfl⟩ := turn?_eq_some_iff.mp hturn
      have hlt : pos < input.haystack.size := hlt
      have hle := le_of_resume? hresume
      show input.haystack.size + 1 - (pos + 1) < input.haystack.size + 1 - c.pos
      omega
    | case3 => trivial

/-- A search that begins with what another one has left. -/
def begin (p : Program) (input : Input) (s : Scratch) : Config where
  matched? := none
  pos := input.start
  scratch := { threads := s.threads.prepare p.size, next := s.next.prepare p.size }

end Lockstep

namespace Search

/-- The first match. -/
def lockstep (p : Program) (input : Input) (s : Lockstep.Scratch) :
    Option Captures × Lockstep.Scratch :=
  if input.haystack.size < input.start then (none, s)
  else
    let (slots?, s) := (Lockstep.loop p input).run (Lockstep.begin p input s)
    (slots?.map (Captures.ofSlots p.slotCount),
      { s with threads := s.threads.clear, next := s.next.clear })

end Search
end LinearRegex
