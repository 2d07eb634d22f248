import LinearRegex.Proofs.Search.Engine
import LinearRegex.Proofs.Search.Unambiguous

/-!
# The threads of a one-pass program

A search in lockstep takes one turn for every position that it looks at (`Search.turns`), and its
answer is what the threads of these turns lead to, one turn after the other
(`Search.lockstep_eq_foldl_turns`).

In an anchored search all threads of the first turn come from the first instruction.  If the program
is one-pass, the instructions that they have come to accept different bytes, so that one thread at
most goes on with the next byte.  The threads of the next turn come from where that one goes on, and
so they all have a single origin again (`IsSingle`).
-/

namespace LinearRegex
namespace Lockstep

/-! ## The turns of a search -/

/-- The threads at `pos` that go on with the next byte. -/
def accepting (p : Program) (h : ByteArray) (pos : Nat) (ts : List Thread) : List Thread :=
  ts.filter fun t => (p.nextAt? h pos t.index).isSome

/-- The threads of a turn that go on with the next byte. -/
def Turn.accepting (p : Program) (h : ByteArray) (t : Turn) : List Thread :=
  Lockstep.accepting p h t.pos t.threads.threads.toList

/-- The match that the threads of a turn lead to, if `matched?` has been found before. -/
def Turn.matched? (p : Program) (input : Input) (matched? : Option Slots) (t : Turn) :
    Option Slots :=
  (advance p input t.pos t.threads.threads.toList ⟨matched?, {}, 0⟩).matched?

variable {p : Program} {input : Input} {pos : Nat} {c : Config}

/-- What a turn finds does not depend on the threads of the next one. -/
theorem matched?_advance (ts : List Thread) (matched? : Option Slots) (next next' : ThreadSet)
    (steps steps' : Nat) :
    (advance p input pos ts ⟨matched?, next, steps⟩).matched? =
      (advance p input pos ts ⟨matched?, next', steps'⟩).matched? := by
  induction ts generalizing matched? next next' steps steps' with
  | nil => rfl
  | cons t ts ih =>
    simp only [advance]
    split
    · split
      · split
        · exact ih ..
        · rfl
      · exact ih ..
    · split
      · split <;> exact ih ..
      · exact ih ..
    · exact ih ..

theorem matched?_of_turn? {t : Turn} (ht : turn? p input c = some t) :
    t.matched? p input c.matched? = t.round.matched? := by
  obtain ⟨i, -, rfl⟩ := turn?_eq_some_iff.mp ht
  exact matched?_advance ..

/-- The answer of a search is what its turns lead to. -/
theorem fst_run_eq_foldl_turns (p : Program) (input : Input) (c : Config) :
    ((loop p input).run c).1 =
      (((loop p input).trace c).filterMap (turn? p input)).foldl (Turn.matched? p input)
        c.matched? := by
  fun_induction (loop p input).trace c with
  | case1 c result h =>
    rw [(loop p input).run_of_done h]
    have hstep : step p input c = .done result := h
    unfold step at hstep
    split at hstep
    · next ht =>
      cases hstep
      rw [List.filterMap_cons_none ht]
      rfl
    · next t ht =>
      rw [List.filterMap_cons_some ht, List.filterMap_nil, List.foldl_cons, matched?_of_turn? ht]
      split at hstep
      · cases hstep
      · cases hstep
        rfl
  | case2 c c' h ih =>
    rw [(loop p input).run_of_next h, ih]
    have hstep : step p input c = .next c' := h
    unfold step at hstep
    split at hstep
    · cases hstep
    · next t ht =>
      rw [List.filterMap_cons_some ht, List.foldl_cons, matched?_of_turn? ht]
      split at hstep
      · cases hstep
        rfl
      · cases hstep

/-! ## Threads at different instructions -/

namespace ThreadSet

/-- The threads are at different instructions, those that are marked. -/
structure IsDistinct (s : ThreadSet) : Prop where
  marked : s.IsMarked
  distinct : s.threads.toList.Pairwise fun t u => t.index ≠ u.index

theorem isDistinct_of_isEmpty {s : ThreadSet} (hmarked : s.IsMarked) (hempty : s.threads = #[]) :
    s.IsDistinct := by
  refine ⟨hmarked, ?_⟩
  rw [hempty]
  exact List.Pairwise.nil

theorem IsDistinct.push {s : ThreadSet} (h : s.IsDistinct) {t : Thread}
    (hfree : s.marks.isFree t.index) : (s.push t).IsDistinct := by
  refine ⟨h.marked.push t, ?_⟩
  rw [ThreadSet.push, Array.toList_push, List.pairwise_append]
  refine ⟨h.distinct, List.pairwise_singleton _ _, fun u hu v hv => ?_⟩
  rw [List.mem_singleton.mp hv]
  exact ((h.marked t.index).mp hfree).2 u (Array.mem_toList_iff.mp hu)

/-- The threads are at different instructions, and all come from one that a byte leads to. -/
structure IsSingle (p : Program) (s : ThreadSet) : Prop extends s.IsDistinct where
  origin : ∃ i, OnePass.IsState p.instrs i ∧
    ∀ t ∈ s.threads, OnePass.ComesTo p.instrs i t.index

theorem IsDistinct.isSingle_of_isEmpty {s : ThreadSet} (h : s.IsDistinct)
    (hempty : s.threads = #[]) : s.IsSingle p :=
  ⟨h, 0, .start, by simp [hempty]⟩

end ThreadSet

section

variable {h : ByteArray}

/-- A thread is added only where there is none. -/
theorem isDistinct_close {tasks : List (Task Nat)} {c : Closure} (hset : c.set.IsDistinct) :
    (close p h pos tasks c).set.IsDistinct := by
  fun_induction close p h pos tasks c with
  | case1 => exact hset
  | case2 _ _ _ _ ih => exact ih hset
  | case3 _ _ _ _ _ ih => exact ih hset
  | case4 _ _ _ hfree _ _ ih => exact ih (hset.push hfree)
  | case5 _ _ _ _ ih => exact ih hset

/-- What holds of the threads that are there, and of what is to be visited with all that follows it,
holds of the threads in the end. -/
theorem forall_mem_close {P : Nat → Prop}
    (hP : ∀ {i instr}, P i → p.instrs[i]? = some instr → ∀ j ∈ instr.targets, P j)
    {tasks : List (Task Nat)} {c : Closure} (htasks : ∀ i, .visit i ∈ tasks → P i)
    (hset : ∀ t ∈ c.set.threads, P t.index) :
    ∀ t ∈ (close p h pos tasks c).set.threads, P t.index := by
  fun_induction close p h pos tasks c with
  | case1 => exact hset
  | case2 _ _ _ _ ih => exact ih (fun i hi => htasks i (List.mem_cons_of_mem _ hi)) hset
  | case3 _ _ _ _ _ ih => exact ih (fun i hi => htasks i (List.mem_cons_of_mem _ hi)) hset
  | case4 c i rest hfree instr hinstr ih =>
    have hi : P i := htasks i List.mem_cons_self
    refine ih (fun j hj => ?_) fun t ht => ?_
    · rcases List.mem_append.mp hj with hj | hj
      · exact hP hi hinstr j (Instr.targetsAt_subset (Task.visit_mem_after.mp hj))
      · exact htasks j (List.mem_cons_of_mem _ hj)
    · rcases Array.mem_push.mp ht with ht | rfl
      · exact hset t ht
      · exact hi
  | case5 _ _ _ _ ih => exact ih (fun i hi => htasks i (List.mem_cons_of_mem _ hi)) hset

/-- The threads of a path that is followed from an instruction come from there. -/
theorem isSingle_close {i : Nat} (hi : OnePass.IsState p.instrs i) {c : Closure}
    (hset : c.set.IsDistinct) (hempty : c.set.threads = #[]) :
    (close p h pos [.visit i] c).set.IsSingle p := by
  refine ⟨isDistinct_close hset, i, hi, forall_mem_close ?_ ?_ ?_⟩
  · intro j instr hcomes hinstr k hk
    exact hcomes.trans (.head hinstr hk (.refl p.instrs k))
  · intro j hj
    obtain rfl := Task.visit.inj (List.mem_singleton.mp hj)
    exact .refl p.instrs j
  · simp [hempty]

end

/-! ## One turn -/

/-- A thread goes on with the byte that its instruction accepts, to where the byte leads. -/
theorem exists_accepts_of_nextAt? {h : ByteArray} {i j : Nat} (hnext : p.nextAt? h pos i = some j) :
    OnePass.LeadsByByte p.instrs i j ∧
      ∃ instr b, p.instrs[i]? = some instr ∧ h[pos]? = some b ∧ instr.Accepts b := by
  obtain ⟨instr, hi, hnext⟩ := Option.bind_eq_some_iff.mp hnext
  obtain ⟨b, hb, hnext⟩ := Option.bind_eq_some_iff.mp hnext
  obtain ⟨t, ht, hlo, hhi, rfl⟩ := Instr.exists_transition_of_next? hnext
  exact ⟨⟨instr, hi, t, ht, rfl⟩, instr, b, hi, hb, t, ht, hlo, hhi⟩

/-- Threads that come from one unambiguous instruction do not accept the same byte. -/
theorem ThreadSet.IsSingle.length_accepting_le_one {s : ThreadSet} (hs : s.IsSingle p)
    (hall : ∀ i, OnePass.IsState p.instrs i → OnePass.IsUnambiguous p.instrs i) (h : ByteArray)
    (pos : Nat) : (accepting p h pos s.threads.toList).length ≤ 1 := by
  obtain ⟨i, hi, hcomes⟩ := hs.origin
  have hdistinct := hs.distinct.filter fun t => (p.nextAt? h pos t.index).isSome
  have heq : ∀ t ∈ accepting p h pos s.threads.toList,
      ∀ u ∈ accepting p h pos s.threads.toList, t.index = u.index := by
    intro t ht u hu
    obtain ⟨htmem, htnext⟩ := List.mem_filter.mp ht
    obtain ⟨humem, hunext⟩ := List.mem_filter.mp hu
    obtain ⟨j, hj⟩ := Option.isSome_iff_exists.mp htnext
    obtain ⟨k, hk⟩ := Option.isSome_iff_exists.mp hunext
    obtain ⟨-, instr, b, hinstr, hb, haccepts⟩ := exists_accepts_of_nextAt? hj
    obtain ⟨-, instr', b', hinstr', hb', haccepts'⟩ := exists_accepts_of_nextAt? hk
    obtain rfl : b = b' := Option.some.inj (hb.symm.trans hb')
    exact (hall i hi).bytes (hcomes t (Array.mem_toList_iff.mp htmem))
      (hcomes u (Array.mem_toList_iff.mp humem)) hinstr hinstr' haccepts haccepts'
  change (accepting p h pos s.threads.toList).Pairwise _ at hdistinct
  generalize accepting p h pos s.threads.toList = ts at hdistinct heq ⊢
  match ts with
  | [] => exact Nat.zero_le 1
  | [_] => exact Nat.le_refl 1
  | t :: u :: _ =>
    have hne := List.rel_of_pairwise_cons hdistinct List.mem_cons_self
    exact absurd (heq t List.mem_cons_self u (List.mem_cons_of_mem _ List.mem_cons_self)) hne

section

variable {t : Thread} {ts : List Thread}

theorem length_accepting_tail
    (hone : (accepting p input.haystack pos (t :: ts)).length ≤ 1) :
    (accepting p input.haystack pos ts).length ≤ 1 :=
  Nat.le_trans (((List.sublist_cons_self t ts).filter _).length_le) hone

/-- If the first thread goes on with the next byte and one at most does, no other does. -/
theorem nextAt?_eq_none_of_length_accepting {i : Nat}
    (hone : (accepting p input.haystack pos (t :: ts)).length ≤ 1)
    (hi : p.nextAt? input.haystack pos t.index = some i) :
    ∀ u ∈ ts, p.nextAt? input.haystack pos u.index = none := by
  intro u hu
  rw [accepting, List.filter_cons_of_pos (by simp [hi]), List.length_cons] at hone
  have hnil := List.length_eq_zero_iff.mp (Nat.le_zero.mp (Nat.le_of_succ_le_succ hone))
  exact Option.not_isSome_iff_eq_none.mp (List.filter_eq_nil_iff.mp hnil u hu)

/-- If one thread at most goes on with the next byte, the threads of the next turn come from where
it goes on. -/
theorem next_advance {r : Round}
    (hone : (accepting p input.haystack pos ts).length ≤ 1) :
    (advance p input pos ts r).next = r.next ∨
      ∃ t ∈ ts, ∃ i steps, p.nextAt? input.haystack pos t.index = some i ∧
        (advance p input pos ts r).next =
          (close p input.haystack (pos + 1) [.visit i] ⟨t.slots, r.next, steps⟩).set := by
  have hskip : ∀ {t : Thread} {ts : List Thread} {Q : Thread → Prop},
      (∃ u ∈ ts, Q u) → ∃ u ∈ t :: ts, Q u :=
    fun ⟨u, hu, hQ⟩ => ⟨u, List.mem_cons_of_mem _ hu, hQ⟩
  fun_induction advance p input pos ts r with
  | case1 | case3 => exact Or.inl rfl
  | case2 _ _ _ _ _ _ _ ih => exact (ih (length_accepting_tail hone)).imp_right hskip
  | case4 _ _ _ _ _ _ ih => exact (ih (length_accepting_tail hone)).imp_right hskip
  | case5 _ _ _ _ _ _ _ _ _ _ ih => exact (ih (length_accepting_tail hone)).imp_right hskip
  | case6 t ts r r' instr hne hi i hnext _ c ih =>
    rw [← Program.nextAt?_of_instr hi] at hnext
    refine Or.inr ⟨t, List.mem_cons_self, i, r'.steps, hnext, ?_⟩
    exact next_advance_of_forall_eq_none (nextAt?_eq_none_of_length_accepting hone hnext) _
  | case7 _ _ _ _ _ _ _ _ ih => exact (ih (length_accepting_tail hone)).imp_right hskip
  | case8 _ _ _ _ _ ih => exact (ih (length_accepting_tail hone)).imp_right hskip

end

/-- A turn leaves threads with a single origin for the next one. -/
theorem ThreadSet.IsSingle.advance {s : ThreadSet} (hs : s.IsSingle p)
    (hall : ∀ i, OnePass.IsState p.instrs i → OnePass.IsUnambiguous p.instrs i) {r : Round}
    (hnext : r.next.IsDistinct) (hempty : r.next.threads = #[]) :
    (Lockstep.advance p input pos s.threads.toList r).next.IsSingle p := by
  have hone := hs.length_accepting_le_one hall input.haystack pos
  rcases next_advance (r := r) hone with heq | ⟨t, ht, i, steps, hi, heq⟩
  · rw [heq]
    exact hnext.isSingle_of_isEmpty hempty
  · obtain ⟨k, hk, hcomes⟩ := hs.origin
    have hstate : OnePass.IsState p.instrs i :=
      .next hk (hcomes t (Array.mem_toList_iff.mp ht)) (exists_accepts_of_nextAt? hi).1
    rw [heq]
    exact isSingle_close hstate hnext hempty

/-! ## All turns of an anchored search -/

/-- An anchored search passes over no position. -/
theorem eq_of_resume?_eq_some (hanchored : input.anchoredFor p) {threads : ThreadSet}
    {matched? : Option Slots} {i : Nat} (hi : resume? p input threads matched? pos = some i) :
    i = pos := by
  rw [resume?, hanchored] at hi
  split at hi
  · split at hi
    · cases hi
    · exact (Option.some.inj hi).symm
  · exact (Option.some.inj hi).symm

/-- The thread that starts where an anchored search does is the only one to start. -/
theorem isSingle_start (hanchored : input.anchoredFor p) {s : Scratch} {matched? : Option Slots}
    (hsingle : s.threads.IsSingle p) (hfirst : pos = input.start → s.threads.threads = #[]) :
    (start p input matched? pos s).threads.IsSingle p := by
  rw [start]
  split
  · next hmay =>
    have hpos : pos = input.start := by
      simp only [mayStartAt, hanchored, Bool.not_true, Bool.false_or, Bool.and_eq_true,
        beq_iff_eq] at hmay
      exact hmay.1.2
    exact isSingle_close .start hsingle.toIsDistinct (hfirst hpos)
  · exact hsingle

/-- The threads at the position of a search have a single origin, and there are none for the next
one yet. -/
structure Config.IsSingle (p : Program) (input : Input) (c : Config) : Prop where
  start_le : input.start ≤ c.pos
  first : c.pos = input.start → c.scratch.threads.threads = #[]
  threads : c.scratch.threads.IsSingle p
  next : c.scratch.next.IsDistinct
  empty : c.scratch.next.threads = #[]

/-- In a turn of an anchored search, the threads have a single origin, and so have those that it
leaves for the next one. -/
theorem Config.IsSingle.of_turn? {t : Turn} (h : c.IsSingle p input)
    (hanchored : input.anchoredFor p)
    (hall : ∀ i, OnePass.IsState p.instrs i → OnePass.IsUnambiguous p.instrs i)
    (ht : Lockstep.turn? p input c = some t) :
    t.pos = c.pos ∧ t.threads.IsSingle p ∧ t.round.next.IsSingle p := by
  obtain ⟨i, hresume, rfl⟩ := turn?_eq_some_iff.mp ht
  obtain rfl : i = c.pos := eq_of_resume?_eq_some hanchored hresume
  have hsingle : (turn p input c).threads.IsSingle p :=
    isSingle_start hanchored h.threads h.first
  refine ⟨rfl, hsingle, ?_⟩
  rw [round_turn]
  exact hsingle.advance hall h.next h.empty

theorem Config.IsSingle.step (h : c.IsSingle p input) (hanchored : input.anchoredFor p)
    (hall : ∀ i, OnePass.IsState p.instrs i → OnePass.IsUnambiguous p.instrs i) :
    (Lockstep.step p input c).Preserves (Config.IsSingle p input) fun _ => True := by
  fun_cases Lockstep.step p input c with
  | case1 => trivial
  | case2 t ht hlt =>
    obtain ⟨hpos, hthreads, hnext⟩ := h.of_turn? hanchored hall ht
    have hle := h.start_le
    rw [← hpos] at hle
    refine ⟨Nat.le_succ_of_le hle, fun heq => ?_, hnext,
      ThreadSet.isDistinct_of_isEmpty hthreads.marked.clear rfl, rfl⟩
    have heq : t.pos + 1 = input.start := heq
    omega
  | case3 => trivial

/-- A search begins without threads. -/
theorem isSingle_begin {s : Scratch} (h : s.IsMarked) (p : Program) (input : Input) :
    (begin p input s).IsSingle p input := by
  have hthreads := ThreadSet.isDistinct_of_isEmpty (h.threads.prepare p.size)
    (ThreadSet.threads_prepare _ _)
  have hnext := ThreadSet.isDistinct_of_isEmpty (h.next.prepare p.size)
    (ThreadSet.threads_prepare _ _)
  exact ⟨Nat.le_refl _, fun _ => ThreadSet.threads_prepare _ _,
    hthreads.isSingle_of_isEmpty (ThreadSet.threads_prepare _ _), hnext,
    ThreadSet.threads_prepare _ _⟩

end Lockstep

namespace Search

/-- The turns of a search in lockstep. -/
def turns (p : Program) (input : Input) (s : Lockstep.Scratch) : List Lockstep.Turn :=
  if input.haystack.size < input.start then []
  else ((Lockstep.loop p input).trace (Lockstep.begin p input s)).filterMap
    (Lockstep.turn? p input)

/-- A search in lockstep finds what its turns lead to. -/
theorem lockstep_eq_foldl_turns (p : Program) (input : Input) (s : Lockstep.Scratch) :
    (lockstep p input s).1 =
      ((turns p input s).foldl (Lockstep.Turn.matched? p input) none).map
        (Captures.ofSlots p.slotCount) := by
  rw [lockstep, turns]
  split
  · rfl
  · exact congrArg (Option.map _) (Lockstep.fst_run_eq_foldl_turns ..)

/-- In every turn of an anchored search, one thread at most goes on with the next byte. -/
theorem length_accepting_of_mem_turns {p : Program} {input : Input} {s : Lockstep.Scratch}
    (hmarked : s.IsMarked) (hanchored : input.anchoredFor p)
    (hall : ∀ i, OnePass.IsState p.instrs i → OnePass.IsUnambiguous p.instrs i) :
    ∀ turn ∈ turns p input s, (turn.accepting p input.haystack).length ≤ 1 := by
  rw [turns]
  split
  · exact List.forall_mem_nil _
  · intro turn hturn
    obtain ⟨c, hc, ht⟩ := List.mem_filterMap.mp hturn
    have hsingle := (Lockstep.loop p input).forall_mem_trace
      (fun _ h => Lockstep.Config.IsSingle.step h hanchored hall)
      (Lockstep.isSingle_begin hmarked p input) c hc
    obtain ⟨-, hthreads, -⟩ := hsingle.of_turn? hanchored hall ht
    exact hthreads.length_accepting_le_one hall input.haystack turn.pos

variable {o : ParserOptions} {pattern : String} {e : Expr}

/-- A program is one-pass exactly if it has no more than 1000 instructions, and from its start and
from wherever a byte leads, the ways that consume nothing come to no instruction twice, to one end
of the match at most, and to instructions that accept different bytes.  Then, in an anchored search,
one thread at most goes on with the next byte at every position. -/
theorem onePass?_iff_isUnambiguous_and_one_thread_goes_on
    (hparse : Expr.parse o pattern = .ok e) (longest : Bool) :
    ((Program.ofExpr longest e).onePass?.isSome ↔
      (Program.ofExpr longest e).size ≤ 1000 ∧
        ∀ i, OnePass.IsState (Program.ofExpr longest e).instrs i →
          OnePass.IsUnambiguous (Program.ofExpr longest e).instrs i) ∧
    ((Program.ofExpr longest e).onePass?.isSome →
      ∀ input : Input, input.anchoredFor (.ofExpr longest e) →
        ∀ c : Cache, c.IsReachable →
          ∀ turn ∈ turns (.ofExpr longest e) input c.scratch,
            (turn.accepting (.ofExpr longest e) input.haystack).length ≤ 1) := by
  have hp := Program.regular_ofExpr longest (Expr.wellFormed_of_parse hparse)
  have hiff := OnePass.isSome_ofInstrs?_iff hp
  exact ⟨hiff, fun hsome input hanchored c hc =>
    length_accepting_of_mem_turns (isMarked_of_isReachable hc) hanchored (hiff.mp hsome).2⟩

/-- The program of `ab` has no choices, so it is one-pass. -/
theorem onePass?_literal_one_thread_goes_on :
    Expr.parse {} "ab" = .ok (.literal ['a', 'b'] false) ∧
      ∃ p, p = Program.ofExpr false (.literal ['a', 'b'] false) ∧ p.onePass?.isSome ∧
        ∀ turn ∈ turns p { haystack := "ab".toUTF8, anchoredStart := true } ({} : Cache).scratch,
          (turn.accepting p "ab".toUTF8).length ≤ 1 := by
  have hrun : (Parser.State.initial (ParserOptions.modes {}) "ab".toList).run {} =
      .ok (.literal ['a', 'b'] false) :=
    (Parser.State.run_of_next rfl).trans <| (Parser.State.run_of_next rfl).trans <|
      Parser.State.run_of_finished rfl
  have hparse : Expr.parse {} "ab" = .ok (.literal ['a', 'b'] false) :=
    congrArg (Except.mapError (Fault.inPattern · "ab")) hrun
  have hstraight : OnePass.IsStraight (Program.ofExpr false (.literal ['a', 'b'] false)).instrs :=
    ⟨by decide +kernel, by decide +kernel⟩
  obtain ⟨hiff, hone⟩ := onePass?_iff_isUnambiguous_and_one_thread_goes_on hparse false
  have hsome : (Program.ofExpr false (.literal ['a', 'b'] false)).onePass?.isSome :=
    hiff.mpr ⟨by decide +kernel, fun i _ => hstraight.isUnambiguous i⟩
  exact ⟨hparse, _, rfl, hsome, hone hsome _ rfl {} .empty⟩

/-- In `ab` one thread of `(a|b)*` goes on with the `a`, one with the `b`, and none at the end. -/
example :
    (turns (.ofExpr false .repeatedGroup)
        { haystack := "ab".toUTF8, anchoredStart := true } {}).map
        (fun turn => (turn.accepting (.ofExpr false .repeatedGroup) "ab".toUTF8).length) =
      [1, 1, 0] := by
  decide +kernel

end Search
end LinearRegex
