import LinearRegex.Proofs.Search.Lockstep
import LinearRegex.Proofs.Storage.Threads
import LinearRegex.Storage.Lockstep

/-!
# The search in lockstep does not see what is stored

Step by step, a search in storage does what a search with new lists of threads does
(`Machine.Mirrors`).  Between two steps no task is left, and between two searches no thread is; all
else that a search finds in storage it writes before it reads it.
-/

namespace LinearRegex

theorem Instr.keepsSlots_of_nextAt? {h : ByteArray} {pos next : Nat} {instr : Instr}
    (hnext : instr.nextAt? h pos = some next) : instr.keepsSlots := by
  rw [keepsSlots, isConsuming_of_nextAt? hnext, Bool.true_or]

namespace Storage

variable {p : Program} {input : Input} {h : ByteArray} {stride pos : Nat}

/-! ## One position -/

/-- No task is left, and there is room for the slots of the next path. -/
structure Walk.IsAtRest (stride steps : Nat) (w : Walk) : Prop where
  tasks : w.tasks = []
  size : w.slots.size = stride
  steps : w.steps = steps

/-- Tasks that are carried out in storage add the same threads in as many steps, and none of them
is left. -/
theorem mirrors_close (tasks : List (Task Nat)) {c : Lockstep.Closure} {s : ThreadSet}
    (hset : s.Mirrors p stride c.set) (hsize : c.slots.size = stride) :
    (close p h pos ⟨tasks, c.slots, c.steps⟩ s).1.IsAtRest stride
        (Lockstep.close p h pos tasks c).steps ∧
      (close p h pos ⟨tasks, c.slots, c.steps⟩ s).2.Mirrors p stride
        (Lockstep.close p h pos tasks c).set := by
  fun_induction Lockstep.close p h pos tasks c generalizing s with
  | case1 c =>
    rw [close]
    exact ⟨⟨rfl, hsize, rfl⟩, hset⟩
  | case2 c slot old rest ih =>
    rw [close]
    exact ih hset ((Slots.size_store _ _ _).trans hsize)
  | case3 c i rest hfree hi ih =>
    rw [close, dif_pos (hset.marks ▸ hfree), hi]
    exact ih hset hsize
  | case4 c i rest hfree instr hi ih =>
    rw [close, dif_pos (hset.marks ▸ hfree), hi]
    exact ih (hset.visit hi hfree hsize) ((Instr.size_store ..).trans hsize)
  | case5 c i rest hfree ih =>
    rw [close, dif_neg (hset.marks ▸ hfree)]
    exact ih hset hsize

/-- A path that is followed in storage adds the same threads, whatever the slots were before. -/
theorem mirrors_follow (h : ByteArray) (pos i : Nat) {w : Walk} {c : Lockstep.Closure}
    {s : ThreadSet} (hw : w.IsAtRest stride c.steps) (hset : s.Mirrors p stride c.set)
    (hsize : c.slots.size = stride) :
    (follow p h pos i { w with slots := c.slots } s).1.IsAtRest stride
        (Lockstep.close p h pos [.visit i] c).steps ∧
      (follow p h pos i { w with slots := c.slots } s).2.Mirrors p stride
        (Lockstep.close p h pos [.visit i] c).set := by
  rw [follow, hw.tasks, hw.steps]
  exact mirrors_close [.visit i] hset hsize

/-- The rounds have found the same match, and the same threads for the next position. -/
structure Round.Mirrors (p : Program) (stride : Nat) (a : Lockstep.Round) (r : Round) : Prop where
  matched : r.matched? = a.matched?
  walk : r.walk.IsAtRest stride a.steps
  next : r.next.Mirrors p stride a.next

theorem Round.Mirrors.look {a : Lockstep.Round} {r : Round} (h : r.Mirrors p stride a) :
    { r with walk.steps := r.walk.steps + 1 : Round }.Mirrors p stride
      { a with steps := a.steps + 1 } :=
  ⟨h.matched, ⟨h.walk.tasks, h.walk.size, congrArg (· + 1) h.walk.steps⟩, h.next⟩

theorem Round.Mirrors.withMatch {a : Lockstep.Round} {r : Round} (h : r.Mirrors p stride a)
    (matched? : Option Slots) :
    { r with matched? : Round }.Mirrors p stride { a with matched? } :=
  ⟨rfl, h.walk, h.next⟩

/-- Threads that are looked at in storage do what they do elsewhere, if their slots are there. -/
theorem mirrors_advance {rows : SlotTable} (hrows : rows.HasRows p.size stride)
    (ts : List Lockstep.Thread) (hholds : rows.Holds p ts) {a : Lockstep.Round} {r : Round}
    (hr : r.Mirrors p stride a) :
    (advance p input pos rows (ts.map (·.index)) r).Mirrors p stride
      (Lockstep.advance p input pos ts a) := by
  fun_induction Lockstep.advance p input pos ts a generalizing r with
  | case1 a =>
    rw [List.map_nil, advance]
    exact hr
  | case2 t ts a a' hi hend hlongest ih =>
    have hrow := hholds t List.mem_cons_self _ hi rfl
    simp only [List.map_cons, advance, hi, hend, hlongest, if_true, hrow, hr.matched]
    exact ih hholds.of_cons (hr.look.withMatch _)
  | case3 t ts a a' hi hend hlongest =>
    have hrow := hholds t List.mem_cons_self _ hi rfl
    simp only [List.map_cons, advance, hi, hend, hlongest, if_true, hrow]
    exact hr.look.withMatch _
  | case4 t ts a a' hi hend ih =>
    simp only [List.map_cons, advance, hi, hend]
    exact ih hholds.of_cons hr.look
  | case5 t ts a a' instr hne hi next hnext hdrop ih =>
    -- The instruction consumes the byte, so that its row was written when the thread was added.
    have hrow := hholds t List.mem_cons_self _ hi (Instr.keepsSlots_of_nextAt? hnext)
    rw [← hr.look.matched] at hdrop
    simp only [List.map_cons, advance, hi, hnext, hrow, hdrop, if_true]
    exact ih hholds.of_cons hr.look
  | case6 t ts a a' instr hne hi next hnext hdrop c =>
    rename_i ih
    have hrow := hholds t List.mem_cons_self _ hi (Instr.keepsSlots_of_nextAt? hnext)
    have hsize : t.slots.size = stride :=
      hrow ▸ hrows.size_row (Program.lt_size_of_instr hi)
    rw [← hr.look.matched] at hdrop
    obtain ⟨hwalk, hnext'⟩ := mirrors_follow input.haystack (pos + 1) next
      (c := ⟨t.slots, a'.next, a'.steps⟩) hr.look.walk hr.look.next hsize
    simp only [List.map_cons, advance, hi, hnext, hrow, hdrop]
    exact ih hholds.of_cons ⟨hr.matched, hwalk, hnext'⟩
  | case7 t ts a a' instr hne hi hnext ih =>
    simp only [List.map_cons, advance, hi, hnext]
    exact ih hholds.of_cons hr.look
  | case8 t ts a a' hi ih =>
    simp only [List.map_cons, advance, hi]
    exact ih hholds.of_cons hr.look

/-! ## A search -/

/-- The machine has the threads of the search, and no task is left. -/
structure Machine.Mirrors (p : Program) (stride : Nat) (a : Lockstep.Scratch) (m : Machine) :
    Prop where
  threads : m.threads.Mirrors p stride a.threads
  next : m.next.Mirrors p stride a.next
  walk : m.walk.IsAtRest stride a.steps

theorem Machine.Mirrors.start {a : Lockstep.Scratch} {m : Machine}
    (h : m.Mirrors p (input.slotsFor p) a) (matched? : Option Slots) (pos : Nat) :
    (Storage.start p input matched? pos m).Mirrors p (input.slotsFor p)
      (Lockstep.start p input matched? pos a) := by
  unfold Storage.start Lockstep.start
  split
  · obtain ⟨hwalk, hthreads⟩ := mirrors_follow input.haystack pos 0
      (c := ⟨Slots.blank (input.slotsFor p), a.threads, a.steps⟩) h.walk h.threads
      (Slots.size_blank _)
    rw [h.walk.size]
    exact ⟨hthreads, h.next, hwalk⟩
  · exact h

/-- The threads of a position do in storage what they do elsewhere. -/
theorem Machine.Mirrors.advance {a : Lockstep.Scratch} {m : Machine} (h : m.Mirrors p stride a)
    (input : Input) (matched? : Option Slots) (pos : Nat) :
    (Storage.advance p input pos m.threads.rows m.threads.items.toList
        ⟨matched?, m.walk, m.next⟩).Mirrors p stride
      (Lockstep.advance p input pos a.threads.threads.toList ⟨matched?, a.next, a.steps⟩) := by
  rw [h.threads.items]
  exact mirrors_advance h.threads.rows a.threads.threads.toList h.threads.holds
    ⟨rfl, h.walk, h.next⟩

/-- Two searches on their way have found the same match and are at the same position. -/
structure Config.Mirrors (p : Program) (stride : Nat) (a : Lockstep.Config) (c : Config) :
    Prop where
  matched : c.matched? = a.matched?
  pos : c.pos = a.pos
  machine : c.machine.Mirrors p stride a.scratch

/-- The results of two searches agree, and so does what they leave. -/
structure ResultMirrors (p : Program) (stride : Nat) (r : Option Slots × Lockstep.Scratch)
    (r' : Option Slots × Machine) : Prop where
  found : r'.1 = r.1
  machine : r'.2.Mirrors p stride r.2

/-- A step in storage does what one with new lists of threads does. -/
theorem Config.Mirrors.step {a : Lockstep.Config} {c : Config}
    (h : c.Mirrors p (input.slotsFor p) a) :
    (Lockstep.step p input a).Rel (Config.Mirrors p (input.slotsFor p))
      (ResultMirrors p (input.slotsFor p)) (Storage.step p input c) := by
  unfold Storage.step Lockstep.step
  rw [resume?_eq_of_isEmpty h.machine.threads.isEmpty_eq, h.matched, h.pos]
  cases ht : Lockstep.turn? p input a with
  | none =>
    rw [Lockstep.turn?_eq_none_iff.mp ht]
    exact .done ⟨rfl, h.machine⟩
  | some t =>
    obtain ⟨i, hresume, rfl⟩ := Lockstep.turn?_eq_some_iff.mp ht
    have hstart := h.machine.start a.matched? i
    have hround := hstart.advance input a.matched? i
    rw [hresume]
    dsimp only [Lockstep.turn]
    split
    · exact .next ⟨hround.matched, rfl, hround.next, hstart.threads.clear, hround.walk⟩
    · exact .done ⟨hround.matched, hstart.threads, hround.next, hround.walk⟩

/-- Both sets of threads are tidy. -/
structure Machine.IsTidy (m : Machine) : Prop where
  threads : m.threads.IsTidy
  next : m.next.IsTidy

theorem Machine.isTidy_empty : IsTidy {} :=
  ⟨ThreadSet.isTidy_empty, ThreadSet.isTidy_empty⟩

theorem Machine.Mirrors.isTidy_clear {a : Lockstep.Scratch} {m : Machine}
    (h : m.Mirrors p stride a) :
    { m with threads := m.threads.clear, next := m.next.clear : Machine }.IsTidy :=
  ⟨h.threads.isTidy_clear, h.next.isTidy_clear⟩

/-- A search begins in a tidy machine as it does with new lists of threads. -/
theorem Machine.IsTidy.mirrors_begin {m : Machine} (h : m.IsTidy) (p : Program) (input : Input) :
    (begin p input m).Mirrors p (input.slotsFor p) (Lockstep.begin p input {}) := by
  refine ⟨rfl, rfl, ?_⟩
  rw [Lockstep.begin, (Lockstep.ThreadSet.isMarked_blank 0).prepare_eq p.size]
  exact ⟨h.threads.resize p _, h.next.resize p _, rfl, Slots.size_blank _, rfl⟩

/-- A search in a tidy machine finds what one finds that is made for it, in as many steps, and
leaves the machine tidy. -/
theorem Machine.IsTidy.lockstep {m : Machine} (h : m.IsTidy) (p : Program) (input : Input) :
    (lockstep p input m).1 = (Search.lockstep p input {}).1 ∧ (lockstep p input m).2.IsTidy ∧
      (lockstep p input m).2.walk.steps =
        if input.start ≤ input.haystack.size then (Search.lockstep p input {}).2.steps
        else m.walk.steps := by
  unfold Storage.lockstep Search.lockstep
  split
  · next hlt =>
    rw [if_neg (Nat.not_le.mpr hlt)]
    exact ⟨rfl, h, rfl⟩
  · next hle =>
    obtain ⟨hfound, hleft⟩ := (Lockstep.loop p input).run_rel (loop p input)
      (fun _ _ hc => hc.step) (h.mirrors_begin p input)
    rw [if_pos (Nat.le_of_not_lt hle)]
    exact ⟨congrArg (·.map (Captures.ofSlots p.slotCount)) hfound, hleft.isTidy_clear,
      hleft.walk.steps⟩

end Storage
end LinearRegex
