import LinearRegex.Proofs.Search.Engine

/-!
# Steps of a search in lockstep

A step is a visit to an instruction, which then has a thread, or a look at a thread.  What bounds
the steps at a position is that the instructions without a thread become fewer with every visit
(`ThreadSet.IsCounted`), and that every thread is looked at once.  So a search takes at most two
steps for every instruction and every position (`steps_run_le`), however the paths of a program
come back to where they have been.
-/

namespace LinearRegex
namespace Lockstep

variable {p : Program} {input : Input} {h : ByteArray} {pos n : Nat}

namespace ThreadSet

/-- There is room for `n` instructions, and every one of them has a thread or is free. -/
structure IsCounted (n : Nat) (s : ThreadSet) : Prop where
  size : s.marks.size = n
  free_add_size : s.marks.free + s.threads.size = n

theorem isCounted_blank (n : Nat) : IsCounted n ⟨#[], Marks.blank n⟩ :=
  ⟨Marks.size_blank n, Marks.free_blank n⟩

@[simp] theorem size_threads_push (s : ThreadSet) (t : Thread) :
    (s.push t).threads.size = s.threads.size + 1 :=
  Array.size_push t

theorem IsCounted.push {s : ThreadSet} (hcount : s.IsCounted n) {t : Thread}
    (hfree : s.marks.isFree t.index) : (s.push t).IsCounted n := by
  have hmark : (s.push t).marks.free + 1 = s.marks.free := Marks.free_mark hfree
  have hsum := hcount.free_add_size
  refine ⟨(Marks.size_mark _ _).trans hcount.size, ?_⟩
  rw [size_threads_push]
  omega

theorem IsCounted.size_le {s : ThreadSet} (hcount : s.IsCounted n) : s.threads.size ≤ n :=
  hcount.free_add_size ▸ Nat.le_add_left _ _

/-- Clearing a set makes all instructions free. -/
theorem IsCounted.clear {s : ThreadSet} (hcount : s.IsCounted n) (hmarked : s.IsMarked) :
    s.clear.IsCounted n := by
  have hclear : s.clear = ⟨#[], Marks.blank n⟩ := by
    rw [← hcount.size, ← hmarked.marks_clear, ThreadSet.clear]
  exact hclear ▸ isCounted_blank n

end ThreadSet

/-- Every step of following paths at a position adds a thread. -/
theorem steps_close (tasks : List (Task Nat)) {c : Closure} (hcount : c.set.IsCounted n) :
    (close p h pos tasks c).set.IsCounted n ∧
      (close p h pos tasks c).steps + c.set.threads.size =
        c.steps + (close p h pos tasks c).set.threads.size := by
  fun_induction close p h pos tasks c with
  | case1 c => exact ⟨hcount, rfl⟩
  | case2 c slot old rest ih => exact ih hcount
  | case3 c i rest hfree hi ih => exact ih hcount
  | case4 c i rest hfree instr hi ih =>
    obtain ⟨hcount', hsteps⟩ := ih (hcount.push hfree)
    rw [ThreadSet.size_threads_push, Nat.add_right_comm] at hsteps
    exact ⟨hcount', Nat.succ_injective hsteps⟩
  | case5 c i rest hfree ih => exact ih hcount

/-- Every step from `r` to `r'` is a look at one of the threads, or adds a thread for the next
position. -/
structure IsPaidFor (n : Nat) (ts : List Thread) (r r' : Round) : Prop where
  next : r'.next.IsCounted n
  steps_le : r'.steps + r.next.threads.size ≤ r.steps + ts.length + r'.next.threads.size

/-- A look at a thread is paid for by the thread. -/
theorem IsPaidFor.look {t : Thread} {ts : List Thread} {r r' : Round} {matched? : Option Slots}
    (hrest : IsPaidFor n ts { r with matched?, steps := r.steps + 1 } r') :
    IsPaidFor n (t :: ts) r r' := by
  have hsteps : r'.steps + r.next.threads.size ≤
      r.steps + 1 + ts.length + r'.next.threads.size := hrest.steps_le
  refine ⟨hrest.next, ?_⟩
  rw [List.length_cons]
  omega

theorem isPaidFor_advance (p : Program) (input : Input) (pos : Nat) (ts : List Thread) {r : Round}
    (hcount : r.next.IsCounted n) :
    IsPaidFor n ts r (advance p input pos ts r) := by
  fun_induction advance p input pos ts r with
  | case1 r => exact ⟨hcount, Nat.le_refl _⟩
  | case2 t ts r r' hi hend hlongest ih => exact (ih hcount).look
  | case3 t ts r r' hi hend hlongest =>
    refine ⟨hcount, ?_⟩
    simp only [r', List.length_cons]
    omega
  | case4 t ts r r' hi hend ih => exact (ih hcount).look
  | case5 t ts r r' instr hne hi next hnext hdrop ih => exact (ih hcount).look
  | case6 t ts r r' instr hne hi next hnext hdrop c ih =>
    obtain ⟨hcount', hadded⟩ : c.set.IsCounted n ∧
        c.steps + r.next.threads.size = r.steps + 1 + c.set.threads.size :=
      steps_close [.visit next] hcount
    have hrest := ih hcount'
    refine ⟨hrest.next, ?_⟩
    have hsteps : (advance p input pos ts { r' with next := c.set, steps := c.steps }).steps +
        c.set.threads.size ≤ c.steps + ts.length +
          (advance p input pos ts { r' with next := c.set, steps := c.steps }).next.threads.size :=
      hrest.steps_le
    rw [List.length_cons]
    omega
  | case7 t ts r r' instr hne hi hnext ih => exact (ih hcount).look
  | case8 t ts r r' hi ih => exact (ih hcount).look

/-- A new thread at `pos` takes as many steps as it adds threads. -/
theorem steps_start (p : Program) (input : Input) (matched? : Option Slots) (pos : Nat)
    {s : Scratch} (hcount : s.threads.IsCounted n) :
    (start p input matched? pos s).threads.IsCounted n ∧
      (start p input matched? pos s).steps + s.threads.threads.size =
        s.steps + (start p input matched? pos s).threads.threads.size := by
  unfold start
  split
  · exact steps_close [.visit 0] hcount
  · exact ⟨hcount, rfl⟩

/-- A turn costs a step for every thread that is added, and another one for the look at it.  What is
added for the next position is set against its threads. -/
theorem steps_turn_le (p : Program) (input : Input) {c : Config}
    (hthreads : c.scratch.threads.IsCounted n) (hnext : c.scratch.next.IsCounted n)
    (hempty : c.scratch.next.threads = #[]) :
    (turn p input c).threads.IsCounted n ∧ (turn p input c).round.next.IsCounted n ∧
      (turn p input c).round.steps + c.scratch.threads.threads.size ≤
        c.scratch.steps + 2 * n + (turn p input c).round.next.threads.size := by
  obtain ⟨hstart, hadded⟩ := steps_start p input c.matched? c.pos hthreads
  obtain ⟨hround, hlooks⟩ := isPaidFor_advance p input c.pos
    (turn p input c).threads.threads.toList
    (r := ⟨c.matched?, c.scratch.next, (start p input c.matched? c.pos c.scratch).steps⟩) hnext
  rw [← round_turn] at hround hlooks
  refine ⟨hstart, hround, ?_⟩
  -- A thread costs the step that adds it and the one that looks at it, and there are `n` at most.
  have hsize : (turn p input c).threads.threads.size ≤ n := hstart.size_le
  change (turn p input c).threads.IsCounted n at hstart
  change _ = c.scratch.steps + (turn p input c).threads.threads.size at hadded
  simp only [hempty, Array.size_empty, Array.length_toList] at hlooks
  omega

/-- Of `total` steps, two are left for every instruction and every position from that of the search
on.  The threads at this position have been paid for. -/
structure Config.Affords (input : Input) (n total : Nat) (c : Config) : Prop where
  marked : c.scratch.IsMarked
  threads : c.scratch.threads.IsCounted n
  next : c.scratch.next.IsCounted n
  empty : c.scratch.next.threads = #[]
  steps_le : c.scratch.steps + 2 * n * (input.haystack.size - c.pos + 1) ≤
    total + c.scratch.threads.threads.size

/-- The threads of the next position have been paid for by the turn, and passing over positions
costs nothing. -/
theorem Config.Affords.of_turn? {p : Program} {total : Nat} {c : Config} {t : Turn}
    (h : c.Affords input n total) (ht : turn? p input c = some t) :
    t.threads.IsCounted n ∧ t.round.next.IsCounted n ∧
      t.round.steps + 2 * n * (input.haystack.size - t.pos) ≤
        total + t.round.next.threads.size := by
  obtain ⟨i, hresume, rfl⟩ := turn?_eq_some_iff.mp ht
  obtain ⟨hcount, hround, hturn⟩ :=
    steps_turn_le (c := { c with pos := i }) p input h.threads h.next h.empty
  refine ⟨hcount, hround, ?_⟩
  dsimp only at hturn
  have hle := le_of_resume? hresume
  have hleft : input.haystack.size - i + 1 ≤ input.haystack.size - c.pos + 1 := by omega
  have hpassed : 2 * n * (input.haystack.size - i + 1) ≤
      2 * n * (input.haystack.size - c.pos + 1) := Nat.mul_le_mul_left (2 * n) hleft
  have hsteps := h.steps_le
  rw [Nat.mul_succ] at hpassed
  change _ + 2 * n * (input.haystack.size - i) ≤ _
  omega

/-- A search never takes more steps than it affords. -/
theorem Config.Affords.step {total : Nat} {c : Config} (h : c.Affords input n total)
    (p : Program) :
    (Lockstep.step p input c).Preserves (Config.Affords input n total) (·.2.steps ≤ total) := by
  fun_cases Lockstep.step p input c with
  | case1 =>
    have hone : 2 * n * 1 ≤ 2 * n * (input.haystack.size - c.pos + 1) :=
      Nat.mul_le_mul_left _ (Nat.le_add_left _ _)
    have hsize := h.threads.size_le
    have hsteps := h.steps_le
    show c.scratch.steps ≤ total
    omega
  | case2 t ht hlt =>
    obtain ⟨hcount, hround, hsteps⟩ := h.of_turn? ht
    obtain ⟨hthreads, hnext⟩ := isMarked_of_turn? h.marked ht
    refine ⟨⟨hnext, hthreads.clear⟩, hround, hcount.clear hthreads, rfl, ?_⟩
    have hleft : input.haystack.size - (t.pos + 1) + 1 = input.haystack.size - t.pos := by omega
    show t.round.steps + 2 * n * (input.haystack.size - (t.pos + 1) + 1) ≤ _
    rw [hleft]
    exact hsteps
  | case3 t ht hge =>
    obtain ⟨-, -, hsteps⟩ := h.of_turn? ht
    rw [next_of_turn? ht (Nat.le_of_not_lt hge), h.empty] at hsteps
    exact Nat.le_trans (Nat.le_add_right _ _) hsteps

end Lockstep

namespace Search

/-- However the repetitions of a program nest, a search in lockstep takes at most two steps for
every instruction and every position from its start on. -/
theorem steps_inLockstep_le (p : Program) (input : Input) {c : Cache} (hc : c.IsReachable)
    (hstart : input.start ≤ input.haystack.size) :
    (inLockstep p input c).2.steps ≤
      2 * p.size * (input.haystack.size - input.start + 1) := by
  have hmarked := isMarked_of_isReachable hc
  have hblank := Lockstep.ThreadSet.isCounted_blank p.size
  have haffords : (Lockstep.begin p input c.scratch).Affords input p.size
      (2 * p.size * (input.haystack.size - input.start + 1)) := by
    have hthreads : (c.scratch.threads.prepare p.size).IsCounted p.size :=
      hmarked.threads.prepare_eq p.size ▸ hblank
    have hnext : (c.scratch.next.prepare p.size).IsCounted p.size :=
      hmarked.next.prepare_eq p.size ▸ hblank
    refine ⟨hmarked.begin p input, hthreads, hnext, Lockstep.ThreadSet.threads_prepare _ _, ?_⟩
    rw [Lockstep.begin, Nat.zero_add]
    exact Nat.le_add_right _ _
  have hrun : ((Lockstep.loop p input).run (Lockstep.begin p input c.scratch)).2.steps ≤
      2 * p.size * (input.haystack.size - input.start + 1) :=
    (Lockstep.loop p input).run_of_preserves (Q := (·.2.steps ≤ _)) (fun _ h => h.step p) haffords
  rw [inLockstep, Cache.steps, lockstep, if_neg (Nat.not_lt.mpr hstart)]
  exact hrun

/-- In `ab` the loop of `(a|b)*` is followed from every position, and its instructions are visited
once at each. -/
theorem steps_inLockstep_repeatedGroup_le :
    Cache.IsReachable {} ∧ 0 ≤ "ab".toUTF8.size ∧
      (inLockstep (.ofExpr false .repeatedGroup) { haystack := "ab".toUTF8 } {}).2.steps ≤
        2 * (Program.ofExpr false .repeatedGroup).size * ("ab".toUTF8.size - 0 + 1) :=
  ⟨.empty, Nat.zero_le _, steps_inLockstep_le (.ofExpr false .repeatedGroup)
    { haystack := "ab".toUTF8 } .empty (Nat.zero_le _)⟩

end Search
end LinearRegex
