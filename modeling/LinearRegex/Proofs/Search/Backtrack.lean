import LinearRegex.Proofs.Search.Loop
import LinearRegex.Proofs.Search.Reference
import LinearRegex.Proofs.Search.Tasks
import LinearRegex.Search.Backtrack

/-!
# The search by backtracking

A search by backtracking keeps to the nodes of the program (`Config.IsWithin`) and visits them in
depth.  What it has visited from an earlier start is settled and holds no match, so leaving it out
changes nothing: with every step, there is as much to be found as before (`leadsTo_step`).

No task is left when a search ends (`tasks_search`), so that the next one finds what it would find
with new memory (`fst_search_eq`).
-/

namespace LinearRegex

/-- What follows a node is a node. -/
theorem Program.Regular.mem_nodes {p : Program} (hp : p.Regular) {input : Input} {a b : Node}
    (ha : a ∈ p.nodes input) (hb : b ∈ p.successors input.haystack a) : b ∈ p.nodes input := by
  rw [Program.mem_nodes] at ha ⊢
  obtain ⟨instr, hi, hexit, -⟩ := Program.exists_exit_of_mem_successors hb
  exact ⟨(hp.exits hi b.1 hexit).2, Nat.le_trans ha.2.1 (Program.le_of_mem_successors hb),
    Program.le_size_of_mem_successors ha.2.2 hb⟩

namespace Backtrack

open Search (outcome outcome_nil ending matchesAt)

variable {p : Program} {input : Input} {seen : Marks} {c c' : Config}

/-- The nodes that have not been visited. -/
def freeNodes (p : Program) (input : Input) (seen : Marks) : Finset Node :=
  (p.nodes input).filter fun c => seen.isFree (key input c.1 c.2)

theorem mem_freeNodes {c : Node} :
    c ∈ freeNodes p input seen ↔ c ∈ p.nodes input ∧ seen.isFree (key input c.1 c.2) :=
  Finset.mem_filter

/-- Two nodes of a search have different numbers. -/
theorem key_inj {c d : Node} (hc : c ∈ p.nodes input) (hd : d ∈ p.nodes input)
    (heq : key input c.1 c.2 = key input d.1 d.2) : c = d := by
  rw [Program.mem_nodes] at hc hd
  have hc' : c.2 - input.start < input.length + 1 := by
    rw [Input.length]
    omega
  have hd' : d.2 - input.start < input.length + 1 := by
    rw [Input.length]
    omega
  have hpos : 0 < input.length + 1 := Nat.succ_pos _
  have hindex : c.1 = d.1 := by
    have := congrArg (· / (input.length + 1)) heq
    simpa [key, Nat.add_comm (_ * _), Nat.add_mul_div_right _ _ hpos, Nat.div_eq_of_lt hc',
      Nat.div_eq_of_lt hd'] using this
  rw [key, key, hindex] at heq
  exact Prod.ext hindex (by omega)

/-- The nodes of a search have numbers below the number of marks. -/
theorem key_lt {c : Node} (hc : c ∈ p.nodes input) :
    key input c.1 c.2 < p.size * (input.length + 1) := by
  rw [Program.mem_nodes] at hc
  have hmul : (c.1 + 1) * (input.length + 1) ≤ p.size * (input.length + 1) :=
    Nat.mul_le_mul_right _ hc.1
  have hpos : c.2 - input.start ≤ input.length := by
    rw [Input.length]
    omega
  rw [Nat.add_mul, Nat.one_mul] at hmul
  rw [key]
  omega

theorem freeNodes_mark {c : Node} (hc : c ∈ p.nodes input) :
    freeNodes p input (seen.mark (key input c.1 c.2)) = (freeNodes p input seen).erase c := by
  ext d
  rw [mem_freeNodes, Marks.isFree_mark, Finset.mem_erase, mem_freeNodes]
  constructor
  · rintro ⟨hd, hne, hfree⟩
    exact ⟨fun heq => hne (heq ▸ rfl), hd, hfree⟩
  · rintro ⟨hne, hd, hfree⟩
    exact ⟨hd, fun heq => hne (key_inj hd hc heq), hfree⟩

/-- Matches that start together are compared by their ends. -/
theorem better_eq {best? : Option Slots} {s : Slots} (h : ∀ m ∈ best?, m.start = s.start) :
    better best? s = Lockstep.better best? s := by
  cases best? with
  | none => rfl
  | some m =>
    have : m.start = s.start := h m rfl
    simp [better, Lockstep.better, this]

/-! ## What a search keeps to -/

/-- Where the next path may start. -/
def Phase.pos : Phase → Nat
  | seek pos => pos
  | follow next _ => next

/-- A search has a mark for every node and a slot for every offset, and visits nodes only. -/
structure Config.IsWithin (p : Program) (input : Input) (c : Config) : Prop where
  start_le : input.start ≤ c.phase.pos
  visits : ∀ a, .visit a ∈ c.tasks → a ∈ p.nodes input
  seen : c.seen.size = p.size * (input.length + 1)
  slots : c.slots.size = input.slotsFor p

theorem Config.IsWithin.start_le_of_phase {phase : Phase} (h : c.IsWithin p input)
    (hphase : c.phase = phase) : input.start ≤ phase.pos :=
  hphase ▸ h.start_le

theorem Config.IsWithin.seek (hp : p.Regular) {pos : Nat} (h : c.IsWithin p input)
    (hphase : c.phase = .seek pos) :
    (Backtrack.seek p input pos c).Preserves (Config.IsWithin p input) fun _ => True := by
  have hstart : input.start ≤ pos := h.start_le_of_phase hphase
  fun_cases Backtrack.seek p input pos c with
  | case1 hin hmay =>
    refine ⟨Nat.le_succ_of_le hstart, ?_, h.seen, (Slots.size_blank _).trans h.slots⟩
    intro a ha
    rcases List.mem_cons.mp ha with heq | hrest
    · obtain rfl := Task.visit.inj heq
      exact Program.mem_nodes.mpr ⟨Program.lt_size_of_instr hp.first, hstart, hin.1⟩
    · exact h.visits a hrest
  | case2 => exact ⟨Nat.le_succ_of_le hstart, h.visits, h.seen, h.slots⟩
  | case3 => trivial

theorem Config.IsWithin.execute (hp : p.Regular) {next i pos : Nat} {best? : Option Slots}
    (h : c.IsWithin p input) (hphase : c.phase = .follow next best?)
    (hmem : (i, pos) ∈ p.nodes input) :
    (Backtrack.execute p input next best? i pos c).Preserves (Config.IsWithin p input)
      fun _ => True := by
  have hstart : input.start ≤ next := h.start_le_of_phase hphase
  fun_cases Backtrack.execute p input next best? i pos c with
  | case1 => exact h
  | case2 => exact ⟨hstart, h.visits, h.seen, h.slots⟩
  | case3 => trivial
  | case4 => exact h
  | case5 instr hne hi =>
    refine ⟨h.start_le, ?_, h.seen, (Instr.size_store ..).trans h.slots⟩
    intro a ha
    rcases List.mem_append.mp ha with hafter | hrest
    · rw [Task.visit_mem_after, ← Program.successors_of_instr hi] at hafter
      exact hp.mem_nodes hmem hafter
    · exact h.visits a hrest

theorem Config.IsWithin.of_tasks_eq_cons {t : Task Node} {rest : List (Task Node)}
    (h : c.IsWithin p input) (htasks : c.tasks = t :: rest) :
    { c with tasks := rest }.IsWithin p input :=
  ⟨h.start_le, fun a ha => h.visits a (htasks ▸ List.mem_cons_of_mem t ha), h.seen, h.slots⟩

theorem Config.IsWithin.follow (hp : p.Regular) {next : Nat} {best? : Option Slots}
    (h : c.IsWithin p input) (hphase : c.phase = .follow next best?) :
    (Backtrack.follow p input next best? c).Preserves (Config.IsWithin p input)
      fun _ => True := by
  fun_cases Backtrack.follow p input next best? c with
  | case1 => trivial
  | case2 =>
    have hstart : input.start ≤ next := h.start_le_of_phase hphase
    exact ⟨hstart, h.visits, h.seen, h.slots⟩
  | case3 slot old rest htasks =>
    have hrest := h.of_tasks_eq_cons htasks
    exact ⟨hrest.start_le, hrest.visits, hrest.seen, (Slots.size_store ..).trans hrest.slots⟩
  | case4 i pos rest htasks hfree =>
    have hrest := h.of_tasks_eq_cons htasks
    have hmem : (i, pos) ∈ p.nodes input := h.visits (i, pos) (htasks ▸ List.mem_cons_self)
    have hmarked : (c.enter input i pos rest).IsWithin p input :=
      ⟨hrest.start_le, hrest.visits, (Marks.size_mark ..).trans hrest.seen, hrest.slots⟩
    exact hmarked.execute hp hphase hmem
  | case5 i pos rest htasks hfree => exact h.of_tasks_eq_cons htasks

theorem Config.IsWithin.step (hp : p.Regular) (h : c.IsWithin p input) :
    (Backtrack.step p input c).Preserves (Config.IsWithin p input) fun _ => True := by
  fun_cases Backtrack.step p input c with
  | case1 pos hphase => exact h.seek hp hphase
  | case2 next best? hphase => exact h.follow hp hphase

theorem isWithin_begin (p : Program) (input : Input) {m : Memory} (hm : m.tasks = []) :
    (begin p input m).IsWithin p input := by
  refine ⟨Nat.le_refl _, ?_, Marks.size_blank _, Slots.size_blank _⟩
  show ∀ a, .visit a ∈ m.tasks → a ∈ p.nodes input
  rw [hm]
  nofun

/-- A search that seeks a start has no tasks. -/
def Config.IsTidy (c : Config) : Prop :=
  ∀ pos, c.phase = .seek pos → c.tasks = []

theorem isTidy_of_follow {next : Nat} {best? : Option Slots}
    (hphase : c.phase = .follow next best?) : c.IsTidy :=
  fun _ hseek => nomatch hphase.symm.trans hseek

theorem isTidy_execute {next : Nat} {best? : Option Slots} (i pos : Nat)
    (hphase : c.phase = .follow next best?) :
    (execute p input next best? i pos c).Preserves Config.IsTidy (·.2.tasks = []) := by
  fun_cases execute p input next best? i pos c with
  | case1 => exact isTidy_of_follow hphase
  | case2 => exact isTidy_of_follow rfl
  | case3 => rfl
  | case4 => exact isTidy_of_follow hphase
  | case5 => exact isTidy_of_follow hphase

/-- A search leaves no task, not even where it stops at a match with tasks still to be carried
out. -/
theorem Config.IsTidy.step (h : c.IsTidy) :
    (Backtrack.step p input c).Preserves Config.IsTidy (·.2.tasks = []) := by
  fun_cases Backtrack.step p input c with
  | case1 pos hphase =>
    fun_cases seek p input pos c with
    | case1 => exact isTidy_of_follow rfl
    | case2 => exact fun _ _ => h pos hphase
    | case3 => exact h pos hphase
  | case2 next best? hphase =>
    fun_cases follow p input next best? c with
    | case1 htasks => exact htasks
    | case2 htasks => exact fun _ _ => htasks
    | case3 => exact isTidy_of_follow hphase
    | case4 i pos => exact isTidy_execute i pos hphase
    | case5 => exact isTidy_of_follow hphase

/-! ## What there is to be found -/

/-- The matches that the tasks lead to. -/
def Config.endings (p : Program) (input : Input) (c : Config) : List Slots :=
  ((p.graph input.haystack).visits (freeNodes p input c.seen)
    (Task.resolve c.slots c.tasks)).flatMap (ending p input)

/-- The nodes that the tasks leave free. -/
def Config.unvisited (p : Program) (input : Input) (c : Config) : Finset Node :=
  (p.graph input.haystack).unvisited (freeNodes p input c.seen) (Task.resolve c.slots c.tasks)

/-- The match that a search has still to find. -/
def Config.prospect (p : Program) (input : Input) (c : Config) : Option Slots :=
  match c.phase with
  | .seek pos => Search.best? p input pos
  | .follow next best? =>
    (outcome p.longest best? (c.endings p input)).or (Search.best? p input next)

/-- What is not free any more leads to no match. -/
structure IsSpent (p : Program) (input : Input) (free : Finset Node) : Prop where
  settled : (p.graph input.haystack).Settled (p.nodes input) free
  noMatch : ∀ c ∈ p.nodes input, c ∉ free → p.accepts input c = false

theorem isSpent_nodes (p : Program) (input : Input) : IsSpent p input (p.nodes input) :=
  ⟨fun _ hc hnot => absurd hc hnot, fun _ hc hnot => absurd hc hnot⟩

/-- Visits that meet no match leave what is spent spent. -/
theorem IsSpent.unvisited {free : Finset Node} (h : IsSpent p input free)
    {stack : List (Node × Slots)}
    (hnone : ((p.graph input.haystack).visits free stack).flatMap (ending p input) = []) :
    IsSpent p input ((p.graph input.haystack).unvisited free stack) := by
  refine ⟨h.settled.unvisited _ stack, fun c hc hnot => ?_⟩
  by_cases hfree : c ∈ free
  · have hkey : c ∈ (p.graph input.haystack).keys ((p.graph input.haystack).visits free stack) := by
      by_contra hkey
      exact hnot (Finset.mem_sdiff.mpr ⟨hfree, hkey⟩)
    obtain ⟨a, ha, rfl⟩ := (p.graph input.haystack).mem_keys.mp hkey
    have hending := List.flatMap_eq_nil_iff.mp hnone a ha
    by_contra haccepts
    rw [ending] at hending
    split at hending
    · cases hending
    · next hnot => exact haccepts (Bool.eq_false_of_not_eq_true hnot)
  · exact h.noMatch c hc hfree

theorem freeNodes_subset (p : Program) (input : Input) (seen : Marks) :
    freeNodes p input seen ⊆ p.nodes input :=
  Finset.filter_subset _ _

/-- What is spent may be visited again: of the matches from a start, the same is kept. -/
theorem outcome_visits_start (hp : p.Regular) {free : Finset Node} (hfree : free ⊆ p.nodes input)
    (hspent : IsSpent p input free) (start : Nat) :
    outcome p.longest none
        (((p.graph input.haystack).visits free
          [((0, start), Slots.blank (input.slotsFor p))]).flatMap (ending p input)) =
      outcome p.longest none (matchesAt p input start) := by
  have hbegun := IsBegun.blank hp (Search.two_le_slotsFor p input) start
  have hfirsts := Search.outcome_firsts p.longest none (p.graph input.haystack) (ending p input)
    free []
    ((p.graph input.haystack).trails (p.nodes input) ((0, start), Slots.blank (input.slotsFor p)))
    (fun b hb hnot => ?_)
    (fun a ha b hb heq => Search.coversAll_ending hp
      (hbegun.of_mem_trails hp ha) (hbegun.of_mem_trails hp hb) (Nat.le_refl start) heq) []
  · rw [Exploration.visits_eq_firsts _ hfree hspent.settled, List.flatMap_singleton, matchesAt,
      Program.results, ← Search.flatMap_ending]
    simpa using hfirsts
  · have hnone := hspent.noMatch _ ((p.graph input.haystack).mem_of_mem_trails hb) hnot
    have hending : ending p input b = [] := if_neg (ne_true_of_eq_false hnone)
    rw [hending]
    exact fun y hy => absurd hy List.not_mem_nil

/-- Up to where an anchored search stops, a match may start at every boundary. -/
theorem admits_eq_isBoundary {pos : Nat} (hstart : input.start ≤ pos)
    (hbound : !(input.anchoredFor p && decide (input.start < pos))) :
    Search.admits p input pos = Utf8.isBoundary input.haystack pos := by
  rw [Search.admits]
  cases hanchored : input.anchoredFor p
  · rfl
  · have heq : pos = input.start := by
      simp only [hanchored, Bool.true_and, Bool.not_eq_true', decide_eq_false_iff_not] at hbound
      omega
    simp [heq]

/-- Where no match may start as far as the first byte tells, none does. -/
theorem matchesAt_eq_nil_of_not_mayStartAt (hs : p.Summarized) {pos : Nat}
    (hstart : input.start ≤ pos) (hsize : pos ≤ input.haystack.size)
    (hboundary : Utf8.isBoundary input.haystack pos) (hmay : ¬ mayStartAt p input.haystack pos) :
    matchesAt p input pos = [] := by
  rw [mayStartAt, hboundary, Bool.true_and, Bool.not_eq_true] at hmay
  cases hbytes : p.firstBytes? with
  | none =>
    rw [hbytes] at hmay
    cases hmay
  | some bytes =>
    rw [hbytes] at hmay
    exact Search.matchesAt_eq_nil_of_firstBytes hs hbytes hstart hsize hmay

/-- All paths that the tasks of a search stand for begin at `start`, and so does the best match.  If
none of them leads to a match, nothing that they visit does. -/
structure Config.IsFollowing (p : Program) (input : Input) (start : Nat) (best? : Option Slots)
    (c : Config) : Prop where
  begun : ∀ a ∈ Task.resolve c.slots c.tasks, IsBegun p start a.1 a.2
  best : ∀ m ∈ best?, m.start = start
  spent : best? = none → c.endings p input = [] → IsSpent p input (c.unvisited p input)

/-- What has been visited from earlier starts leads to no match. -/
def Config.IsSound (p : Program) (input : Input) (c : Config) : Prop :=
  match c.phase with
  | .seek _ => IsSpent p input (freeNodes p input c.seen)
  | .follow next best? => ∃ start, next = start + 1 ∧ c.IsFollowing p input start best?

/-- A step leaves a search from which there is `found?` to be found, or has found it. -/
def LeadsTo (p : Program) (input : Input) (found? : Option Slots) (o : Outcome) : Prop :=
  o.Preserves (fun c => c.IsSound p input ∧ c.prospect p input = found?) (·.1 = found?)

/-- A start where there is no match can be passed over; otherwise its paths are followed. -/
theorem leadsTo_seek (hp : p.Regular) (hs : p.Summarized) {pos : Nat}
    (hwithin : c.IsWithin p input) (htidy : c.IsTidy) (hphase : c.phase = .seek pos)
    (hspent : IsSpent p input (freeNodes p input c.seen)) :
    LeadsTo p input (Search.best? p input pos) (seek p input pos c) := by
  have hstart : input.start ≤ pos := hwithin.start_le_of_phase hphase
  fun_cases seek p input pos c with
  | case1 hin hmay =>
    have hboundary := (Bool.and_eq_true_iff.mp hmay).1
    have hadmits := (admits_eq_isBoundary hstart hin.2).trans hboundary
    have hbegun := IsBegun.blank hp (Search.two_le_slotsFor p input) pos
    rw [htidy pos hphase, hwithin.slots]
    refine ⟨⟨pos, rfl, List.forall_mem_singleton.mpr hbegun, ?_,
      fun _ hnone => hspent.unvisited hnone⟩, ?_⟩
    · intro m hm
      cases hm
    · rw [Search.best?_of_admits hin.1 hadmits,
        ← outcome_visits_start hp (freeNodes_subset p input c.seen) hspent pos]
      rfl
  | case2 hin hmay =>
    refine ⟨hspent, (Search.best?_succ hin.1 fun hadmits => ?_).symm⟩
    rw [admits_eq_isBoundary hstart hin.2] at hadmits
    exact matchesAt_eq_nil_of_not_mayStartAt hs hstart hin.1 hadmits hmay
  | case3 hout =>
    refine (Search.best?_eq_none fun start hmem => ?_).symm
    by_cases hsize : pos ≤ input.haystack.size
    · have hanchored : input.anchoredFor p ∧ input.start < pos := by
        simpa [hsize] using hout
      rw [Search.startsFrom_of_anchoredFor hanchored.1 hanchored.2] at hmem
      cases hmem
    · rw [Search.startsFrom_of_lt (Nat.lt_of_not_le hsize)] at hmem
      cases hmem

/-- A visit to a node that is not free changes nothing. -/
theorem endings_of_notMem {a : Node × Slots} {stack : List (Node × Slots)}
    (hstack : Task.resolve c.slots c.tasks = a :: stack) (hnot : a.1 ∉ freeNodes p input c.seen)
    (hseen : c'.seen = c.seen) (hrest : Task.resolve c'.slots c'.tasks = stack) :
    c.endings p input = c'.endings p input ∧ c.unvisited p input = c'.unvisited p input := by
  rw [Config.endings, Config.endings, Config.unvisited, Config.unvisited, hstack, hseen, hrest,
    Exploration.visits_cons_of_notMem _ hnot, Exploration.unvisited_cons_of_notMem _ hnot]
  exact ⟨rfl, rfl⟩

/-- A visit to a node that is free may end a match. -/
theorem endings_of_mem {a : Node × Slots} {stack : List (Node × Slots)}
    (hstack : Task.resolve c.slots c.tasks = a :: stack) (hmem : a.1 ∈ freeNodes p input c.seen)
    (hseen : freeNodes p input c'.seen = (freeNodes p input c.seen).erase a.1)
    (hrest : Task.resolve c'.slots c'.tasks = (p.graph input.haystack).next a ++ stack) :
    c.endings p input = ending p input a ++ c'.endings p input ∧
      c.unvisited p input = c'.unvisited p input := by
  rw [Config.endings, Config.endings, Config.unvisited, Config.unvisited, hstack, hseen, hrest,
    Exploration.visits_cons_of_mem _ hmem, Exploration.unvisited_cons_of_mem _ hmem,
    List.flatMap_cons]
  exact ⟨rfl, rfl⟩

/-- What is still to be found by a search whose paths are followed. -/
theorem prospect_of_follow {next : Nat} {best? : Option Slots}
    (hphase : c.phase = .follow next best?) :
    c.prospect p input = (outcome p.longest best? (c.endings p input)).or
      (Search.best? p input next) := by
  rw [Config.prospect, hphase]

/-- A visit that ends no match leaves a search from which there is as much to be found. -/
theorem leadsTo_next {start : Nat} {best? : Option Slots} (h : c.IsFollowing p input start best?)
    (hphase : c.phase = .follow (start + 1) best?) (hphase' : c'.phase = c.phase)
    (hbegun : ∀ a ∈ Task.resolve c'.slots c'.tasks, IsBegun p start a.1 a.2)
    (heq : c.endings p input = c'.endings p input ∧ c.unvisited p input = c'.unvisited p input) :
    LeadsTo p input (c.prospect p input) (.next c') := by
  rw [hphase] at hphase'
  refine ⟨?_, ?_⟩
  · rw [Config.IsSound, hphase']
    exact ⟨start, rfl, hbegun, h.best, heq.1 ▸ heq.2 ▸ h.spent⟩
  · rw [prospect_of_follow hphase, prospect_of_follow hphase', heq.1]

theorem next_of_instr {i pos : Nat} {slots : Slots} {instr : Instr}
    (hi : p.instrs[i]? = some instr) :
    (p.graph input.haystack).next ((i, pos), slots) =
      (instr.successors input.haystack pos).map (·, instr.store slots pos) := by
  rw [Program.next_graph, Program.successors_of_instr hi, Program.stored_of_instr hi]

section

variable {i pos : Nat} {rest : List (Task Node)}

@[simp] theorem slots_enter : (c.enter input i pos rest).slots = c.slots :=
  rfl

@[simp] theorem seen_enter :
    (c.enter input i pos rest).seen = c.seen.mark (key input i pos) :=
  rfl

theorem resolve_of_tasks_eq_visit (htasks : c.tasks = .visit (i, pos) :: rest) :
    Task.resolve c.slots c.tasks = ((i, pos), c.slots) :: Task.resolve c.slots rest := by
  rw [htasks, Task.resolve]

/-- A visit to the end of the program leads nowhere else. -/
theorem endings_enter_of_accept (hi : p.instrs[i]? = some .accept)
    (htasks : c.tasks = .visit (i, pos) :: rest) (hmem : (i, pos) ∈ freeNodes p input c.seen) :
    c.endings p input = (if input.mayEndAt pos then [c.slots] else []) ++
        (c.enter input i pos rest).endings p input ∧
      c.unvisited p input = (c.enter input i pos rest).unvisited p input := by
  have hending : ending p input ((i, pos), c.slots) =
      if input.mayEndAt pos then [c.slots] else [] := by
    rw [ending, Program.accepts_of_instr hi, beq_self_eq_true, Bool.true_and]
  have hseen : freeNodes p input (c.enter input i pos rest).seen =
      (freeNodes p input c.seen).erase (i, pos) := by
    rw [seen_enter, freeNodes_mark (mem_freeNodes.mp hmem).1]
  rw [← hending]
  refine endings_of_mem (resolve_of_tasks_eq_visit htasks) hmem hseen ?_
  rw [next_of_instr hi, Instr.successors_accept]
  rfl

/-- A visit to another instruction leads on to what follows it. -/
theorem endings_of_ne_accept {instr : Instr} (hi : p.instrs[i]? = some instr)
    (hne : instr ≠ .accept) (htasks : c.tasks = .visit (i, pos) :: rest)
    (hmem : (i, pos) ∈ freeNodes p input c.seen)
    (hrest : Task.resolve c'.slots c'.tasks =
      (p.graph input.haystack).next ((i, pos), c.slots) ++ Task.resolve c.slots rest)
    (hseen : c'.seen = c.seen.mark (key input i pos)) :
    c.endings p input = c'.endings p input ∧ c.unvisited p input = c'.unvisited p input := by
  have hending : ending p input ((i, pos), c.slots) = [] := by
    rw [ending, Program.accepts_eq_false hi hne]
    rfl
  have hseen' : freeNodes p input c'.seen = (freeNodes p input c.seen).erase (i, pos) := by
    rw [hseen, freeNodes_mark (mem_freeNodes.mp hmem).1]
  have heq := endings_of_mem (resolve_of_tasks_eq_visit htasks) hmem hseen' hrest
  rwa [hending, List.nil_append] at heq

/-- A visit to a free node leaves what there is to be found, unless it is found. -/
theorem leadsTo_execute (hp : p.Regular) {start : Nat} {best? : Option Slots}
    (h : c.IsFollowing p input start best?) (hphase : c.phase = .follow (start + 1) best?)
    (htasks : c.tasks = .visit (i, pos) :: rest) (hmem : (i, pos) ∈ freeNodes p input c.seen) :
    LeadsTo p input (c.prospect p input)
      (execute p input (start + 1) best? i pos (c.enter input i pos rest)) := by
  have hbegun := h.begun
  rw [resolve_of_tasks_eq_visit htasks, List.forall_mem_cons] at hbegun
  fun_cases execute p input (start + 1) best? i pos (c.enter input i pos rest) with
  | case1 hi =>
    have hnode := Program.mem_nodes.mp (mem_freeNodes.mp hmem).1
    obtain ⟨instr, hinstr⟩ := Program.exists_instr hnode.1
    cases hi.symm.trans hinstr
  | case2 hi hend hlongest =>
    -- The best match starts where this one does, so that it is enough to compare the ends.
    have hstart : c.slots.start = start := by
      refine hbegun.1.start_eq fun hzero => ?_
      obtain rfl : i = 0 := hzero
      cases hp.first.symm.trans hi
    have hbetter : better best? c.slots = Lockstep.better best? c.slots :=
      better_eq fun m hm => (h.best m hm).trans hstart.symm
    refine ⟨⟨start, rfl, hbegun.2, ?_, ?_⟩, ?_⟩
    · intro m hm
      split at hm
      · obtain rfl := Option.some.inj hm
        exact hstart
      · exact h.best m hm
    · intro hnone
      split at hnone
      · cases hnone
      · next hworse =>
        subst hnone
        exact absurd rfl hworse
    · rw [prospect_of_follow hphase, (endings_enter_of_accept hi htasks hmem).1, if_pos hend,
        prospect_of_follow rfl, slots_enter, hbetter, hlongest]
      rfl
  | case3 hi hend hlongest =>
    rw [prospect_of_follow hphase, (endings_enter_of_accept hi htasks hmem).1, if_pos hend,
      Bool.eq_false_of_not_eq_true hlongest]
    rfl
  | case4 hi hend =>
    have heq := endings_enter_of_accept hi htasks hmem
    rw [if_neg hend, List.nil_append] at heq
    exact leadsTo_next h hphase rfl hbegun.2 heq
  | case5 instr hne hi =>
    have hrest := Task.resolve_after c.slots pos instr (instr.successors input.haystack pos) rest
    rw [← next_of_instr hi] at hrest
    refine leadsTo_next h hphase rfl ?_ (endings_of_ne_accept hi hne htasks hmem hrest rfl)
    intro b hb
    rcases List.mem_append.mp (hrest ▸ hb) with hnext | hleft
    · obtain ⟨d, hd, rfl⟩ := List.mem_map.mp hnext
      exact hbegun.1.next hp hd
    · exact hbegun.2 b hleft

end

theorem endings_of_tasks_eq_nil (p : Program) (input : Input) (htasks : c.tasks = []) :
    c.endings p input = [] ∧ c.unvisited p input = freeNodes p input c.seen := by
  rw [Config.endings, Config.unvisited, htasks, Task.resolve, Exploration.unvisited,
    Exploration.visits_nil, Exploration.keys]
  exact ⟨rfl, Finset.sdiff_empty⟩

/-- A task leaves what there is to be found, unless it is found. -/
theorem leadsTo_follow (hp : p.Regular) {start : Nat} {best? : Option Slots}
    (hwithin : c.IsWithin p input) (h : c.IsFollowing p input start best?)
    (hphase : c.phase = .follow (start + 1) best?) :
    LeadsTo p input (c.prospect p input) (follow p input (start + 1) best? c) := by
  fun_cases follow p input (start + 1) best? c with
  | case1 htasks hbest =>
    obtain ⟨m, rfl⟩ := Option.isSome_iff_exists.mp hbest
    rw [prospect_of_follow hphase, (endings_of_tasks_eq_nil p input htasks).1, outcome_nil]
    rfl
  | case2 htasks hbest =>
    obtain ⟨hendings, hunvisited⟩ := endings_of_tasks_eq_nil p input htasks
    rw [Option.not_isSome_iff_eq_none] at hbest
    refine ⟨?_, ?_⟩
    · rw [Config.IsSound, ← hunvisited]
      exact h.spent hbest hendings
    · rw [prospect_of_follow hphase, hendings, outcome_nil, hbest]
      rfl
  | case3 slot old rest htasks =>
    have hstack : Task.resolve c.slots c.tasks = Task.resolve (c.slots.store slot old) rest := by
      rw [htasks, Task.resolve]
    refine leadsTo_next h hphase rfl (hstack ▸ h.begun) ?_
    rw [Config.endings, Config.unvisited, hstack]
    exact ⟨rfl, rfl⟩
  | case4 i pos rest htasks hfree =>
    have hnode : (i, pos) ∈ p.nodes input := hwithin.visits (i, pos) (htasks ▸ List.mem_cons_self)
    exact leadsTo_execute hp h hphase htasks (mem_freeNodes.mpr ⟨hnode, hfree⟩)
  | case5 i pos rest htasks hfree =>
    have hstack := resolve_of_tasks_eq_visit htasks
    have hbegun := h.begun
    rw [hstack, List.forall_mem_cons] at hbegun
    have hnot : (i, pos) ∉ freeNodes p input c.seen :=
      fun hmem => hfree (mem_freeNodes.mp hmem).2
    exact leadsTo_next h hphase rfl hbegun.2 (endings_of_notMem hstack hnot rfl rfl)

/-- With every step there is as much to be found as before, until it is found. -/
theorem leadsTo_step (hp : p.Regular) (hs : p.Summarized) (hwithin : c.IsWithin p input)
    (htidy : c.IsTidy) (h : c.IsSound p input) :
    LeadsTo p input (c.prospect p input) (step p input c) := by
  fun_cases step p input c with
  | case1 pos hphase =>
    rw [Config.IsSound, hphase] at h
    rw [Config.prospect, hphase]
    exact leadsTo_seek hp hs hwithin htidy hphase h
  | case2 next best? hphase =>
    rw [Config.IsSound, hphase] at h
    obtain ⟨start, rfl, h⟩ := h
    exact leadsTo_follow hp hwithin h hphase

theorem freeNodes_blank (p : Program) (input : Input) :
    freeNodes p input (Marks.blank (p.size * (input.length + 1))) = p.nodes input := by
  refine Finset.filter_true_of_mem fun c hc => ?_
  rw [Marks.isFree_blank]
  exact key_lt hc

/-- A search finds the match from the first start that has one. -/
theorem fst_run_begin (hp : p.Regular) (hs : p.Summarized) {m : Memory} (hm : m.tasks = []) :
    ((loop p input).run (begin p input m)).1 = Search.best? p input input.start := by
  have hsound : (begin p input m).IsSound p input := by
    show IsSpent p input (freeNodes p input (Marks.blank _))
    rw [freeNodes_blank]
    exact isSpent_nodes p input
  refine (loop p input).run_of_preserves
    (I := fun c => c.IsWithin p input ∧ c.IsTidy ∧ c.IsSound p input ∧
      c.prospect p input = Search.best? p input input.start)
    (Q := fun r => r.1 = Search.best? p input input.start)
    (fun c ⟨hwithin, htidy, hsound, hprospect⟩ => ?_)
    ⟨isWithin_begin p input hm, fun _ _ => hm, hsound, rfl⟩
  have hleads := leadsTo_step hp hs hwithin htidy hsound
  rw [hprospect] at hleads
  exact ((hwithin.step hp).and (htidy.step.and hleads)).mono (fun _ h => h) fun _ h => h.2.2

/-- A program that fits is not refused. -/
theorem fst_search_ne_error (hfits : fits p.size input.length) (m : Memory) (refusal : TooBig) :
    (search p input m).1 ≠ .error refusal := by
  rw [search, if_pos hfits]
  split <;> nofun

/-! ## Searches after other searches -/

/-- Of the memory that a search is given, only the tasks count. -/
theorem fst_search_eq (p : Program) (input : Input) {m : Memory} (hm : m.tasks = []) :
    (search p input m).1 = Search.backtrack p input := by
  have hbegin : begin p input m = begin p input {} := by
    rw [begin, begin, hm]
  unfold Search.backtrack search
  rw [hbegin]
  split
  · rfl
  · split <;> rfl

/-- A search leaves no task. -/
theorem tasks_search (p : Program) (input : Input) {m : Memory} (hm : m.tasks = []) :
    (search p input m).2.tasks = [] := by
  fun_cases search p input m with
  | case1 => exact hm
  | case2 hle hfits slots? m' hrun =>
    have htidy := (loop p input).run_of_preserves (fun c h => Config.IsTidy.step (c := c) h)
      (fun _ _ => hm : (begin p input m).IsTidy)
    rwa [hrun] at htidy
  | case3 => exact hm

/-- The memory after the given searches. -/
def Memory.after (history : List (Program × Input)) : Memory :=
  history.foldl (fun m q => (search q.1 q.2 m).2) {}

/-- No search has left a task. -/
theorem Memory.tasks_after (history : List (Program × Input)) : (after history).tasks = [] :=
  List.foldlRecOn (motive := fun m : Memory => m.tasks = []) history _ rfl
    fun _ hm q _ => tasks_search q.1 q.2 hm

end Backtrack

namespace Search

/-- A search by backtracking that is not refused finds the match to be found. -/
theorem backtrack_eq_ok {p : Program} {input : Input} {captures? : Option Captures}
    (hp : p.Regular) (hs : p.Summarized) (h : backtrack p input = .ok captures?) :
    captures? = (best? p input input.start).map (Captures.ofSlots p.slotCount) := by
  unfold backtrack Backtrack.search at h
  split at h
  · next hlt =>
    cases h
    rw [best?_eq_none fun start hmem => ?_]
    · rfl
    · rw [startsFrom_of_lt hlt] at hmem
      cases hmem
  · split at h
    · cases h
      rw [Backtrack.fst_run_begin hp hs rfl]
    · cases h

end Search
end LinearRegex
