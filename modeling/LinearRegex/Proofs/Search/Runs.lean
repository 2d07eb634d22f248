import LinearRegex.Proofs.Search.Engine

/-!
# The runs of a program

A run is a path of the graph of a program that begins at a start, repeats nothing and ends with a
match (`Program.IsRun`).  Of two runs the one is preferred that takes the first target where they
part.  The matches of a start come in the order of its runs (`matchesAt_eq_map_written`), so the
match that a search ought to find is written along the preferred run of the first start that has one
(`outcome_matchesAt_eq_some_iff`), and the search in lockstep finds it.
-/

namespace LinearRegex
namespace Program

variable (p : Program) (input : Input)

/-- A path from the first instruction at `start` to a match, which comes to no node twice. -/
structure IsRun (start : Nat) (path : List Node) : Prop where
  head : path.head? = some (0, start)
  chain : path.IsChain fun c d => d ∈ p.successors input.haystack c
  nodup : path.Nodup
  accepts : ∃ c, path.getLast? = some c ∧ p.accepts input c

/-- What a step from `c` to `d` chooses: at a split, whether it passes over the first target. -/
def choice (c d : Node) : List Bool :=
  match p.instrs[c.1]? with
  | some (.split first _) => [d.1 != first]
  | _ => []

/-- The choices of a path, in the order in which it makes them. -/
def choices : List Node → List Bool
  | c :: d :: rest => p.choice c d ++ choices (d :: rest)
  | _ => []

/-- The slots after a path that begins with the slots `s`. -/
def written (s : Slots) (path : List Node) : Slots :=
  path.foldl (fun s c => p.stored c s) s

/-- The position at which a path ends. -/
def stopOf (path : List Node) : Nat :=
  (path.getLast?.map (·.2)).getD 0

/-- A run that is preferred to the others from its start or, if the longest match is asked for, to
those that end last. -/
structure IsPreferred (start : Nat) (path : List Node) : Prop where
  isRun : p.IsRun input start path
  last : p.longest → ∀ path', p.IsRun input start path' → stopOf path' ≤ stopOf path
  first : ∀ path', p.IsRun input start path' → (p.longest → stopOf path' = stopOf path) →
    ¬ p.choices path' < p.choices path

/-- A match of the program may start at `start`. -/
structure IsAdmissible (start : Nat) : Prop extends input.Admits start where
  anchored : p.anchored → start = input.start

/-- The runs from a node that keep to free nodes, the preferred one first. -/
def runsFrom (free : Finset Node) (c : Node) : List (List Node) :=
  if _hfree : c ∈ free then
    (if p.accepts input c then [[c]] else []) ++
      (p.successors input.haystack c).flatMap fun d =>
        (runsFrom (free.erase c) d).map (c :: ·)
  else []
termination_by free.card
decreasing_by exact Finset.card_erase_lt_of_mem _hfree

variable {p input} {free : Finset Node} {c : Node}

theorem runsFrom_of_mem (h : c ∈ free) :
    p.runsFrom input free c =
      (if p.accepts input c then [[c]] else []) ++
        (p.successors input.haystack c).flatMap fun d =>
          (p.runsFrom input (free.erase c) d).map (c :: ·) := by
  rw [runsFrom, dif_pos h]

theorem runsFrom_of_notMem (h : c ∉ free) : p.runsFrom input free c = [] := by
  rw [runsFrom, dif_neg h]

/-- A match stores nothing. -/
theorem stored_of_accepts (hc : p.accepts input c) (s : Slots) : p.stored c s = s :=
  stored_of_instr (instr_of_accepts hc) s

/-- The runs from a node are all its paths to a match that keep to free nodes and repeat none. -/
theorem mem_runsFrom_iff {path : List Node} :
    path ∈ p.runsFrom input free c ↔
      path.head? = some c ∧ (path.IsChain fun c d => d ∈ p.successors input.haystack c) ∧
        path.Nodup ∧ (∀ d ∈ path, d ∈ free) ∧ ∃ d, path.getLast? = some d ∧ p.accepts input d := by
  induction free, c using runsFrom.induct generalizing path with
  | case1 free c hfree ih =>
    rw [runsFrom_of_mem hfree, List.mem_append, List.mem_flatMap]
    constructor
    · rintro (hmem | ⟨d, hd, hmem⟩)
      · split at hmem
        · next haccepts =>
          obtain rfl := List.mem_singleton.mp hmem
          exact ⟨rfl, List.isChain_singleton c, List.nodup_singleton c, by simpa using hfree, c,
            rfl, haccepts⟩
        · cases hmem
      · obtain ⟨path', hpath', rfl⟩ := List.mem_map.mp hmem
        obtain ⟨hhead, hchain, hnodup, hwithin, last, hlast, haccepts⟩ := (ih d).mp hpath'
        obtain ⟨rest, rfl⟩ := List.head?_eq_some_iff.mp hhead
        have hnot : c ∉ d :: rest := fun hc => absurd rfl (Finset.ne_of_mem_erase (hwithin c hc))
        refine ⟨rfl, List.isChain_cons_cons.mpr ⟨hd, hchain⟩, List.nodup_cons.mpr ⟨hnot, hnodup⟩,
          List.forall_mem_cons.mpr ⟨hfree, fun x hx => Finset.mem_of_mem_erase (hwithin x hx)⟩,
          last, ?_, haccepts⟩
        rw [List.getLast?_cons_cons, hlast]
    · rintro ⟨hhead, hchain, hnodup, hwithin, last, hlast, haccepts⟩
      obtain ⟨rest, rfl⟩ := List.head?_eq_some_iff.mp hhead
      cases rest with
      | nil =>
        obtain rfl : c = last := Option.some.inj hlast
        exact Or.inl (by rw [if_pos haccepts]; exact List.mem_singleton_self _)
      | cons d rest =>
        obtain ⟨hd, hchain⟩ := List.isChain_cons_cons.mp hchain
        obtain ⟨hnot, hnodup⟩ := List.nodup_cons.mp hnodup
        rw [List.getLast?_cons_cons] at hlast
        refine Or.inr ⟨d, hd, List.mem_map_of_mem ((ih d).mpr
          ⟨rfl, hchain, hnodup, fun x hx => Finset.mem_erase.mpr ⟨?_, ?_⟩, last, hlast, haccepts⟩)⟩
        · exact fun heq => hnot (heq ▸ hx)
        · exact hwithin x (List.mem_cons_of_mem c hx)
  | case2 free c hfree =>
    rw [runsFrom_of_notMem hfree]
    refine iff_of_false List.not_mem_nil ?_
    rintro ⟨hhead, -, -, hwithin, -⟩
    exact hfree (hwithin c (List.mem_of_head? hhead))

/-- The results of a node are written along its runs. -/
theorem map_snd_results_eq (free : Finset Node) (c : Node) (s : Slots) :
    (((p.graph input.haystack).trails free (c, s)).filter fun a => p.accepts input a.1).map (·.2) =
      (p.runsFrom input free c).map (p.written s) := by
  induction free, c using runsFrom.induct generalizing s with
  | case1 free c hfree ih =>
    have hkey : (p.graph input.haystack).key (c, s) ∈ free := hfree
    have hcons : ∀ d, ((p.runsFrom input (free.erase c) d).map (c :: ·)).map (p.written s) =
        (p.runsFrom input (free.erase c) d).map (p.written (p.stored c s)) := by
      intro d
      rw [List.map_map]
      rfl
    rw [Exploration.trails_of_mem _ hkey, runsFrom_of_mem hfree, List.filter_cons, next_graph,
      List.flatMap_map, List.filter_flatMap, List.map_append, List.map_flatMap]
    simp only [hcons, ← ih]
    split
    · next haccepts =>
      rw [List.map_cons, List.map_flatMap]
      simp only [List.map_cons, List.map_nil, written, List.foldl_cons, List.foldl_nil,
        stored_of_accepts haccepts]
      rfl
    · rw [List.map_flatMap]
      rfl
  | case2 free c hfree =>
    have hkey : (p.graph input.haystack).key (c, s) ∉ free := hfree
    rw [Exploration.trails_of_notMem _ hkey, runsFrom_of_notMem hfree]
    rfl

/-! ## The order of the runs -/

theorem choices_cons {d : Node} {path : List Node} (hhead : path.head? = some d) :
    p.choices (c :: path) = p.choice c d ++ p.choices path := by
  obtain ⟨rest, rfl⟩ := List.head?_eq_some_iff.mp hhead
  rfl

/-- Of two successors of a node, the first is the first target of a split. -/
theorem pairwise_choice (hp : p.Regular) (h : ByteArray) (c : Node) :
    (p.successors h c).Pairwise fun d d' => p.choice c d = [false] ∧ p.choice c d' = [true] := by
  by_cases hlt : c.1 < p.size
  · obtain ⟨instr, hinstr⟩ := exists_instr hlt
    have hsuccessors : p.successors h c = instr.successors h c.2 := successors_of_instr hinstr
    rw [hsuccessors]
    by_cases hconsuming : instr.isConsuming
    · rw [Instr.successors_of_isConsuming hconsuming]
      cases Instr.nextAt? h c.2 instr with
      | none => exact List.Pairwise.nil
      | some next => exact List.pairwise_singleton _ _
    · cases instr with
      | split first second =>
        have hne : second ≠ first := (hp.split hinstr).symm
        simp [choice, hinstr, hne]
      | look l next =>
        rw [Instr.successors_look]
        split <;> simp
      | byteRange t => exact absurd rfl hconsuming
      | sparse ts => exact absurd rfl hconsuming
      | _ => simp
  · rw [List.eq_nil_iff_forall_not_mem.mpr fun d hd => hlt (lt_size_of_mem_successors hd)]
    exact List.Pairwise.nil

/-- The runs from a node come in the order of their choices. -/
theorem pairwise_runsFrom (hp : p.Regular) (input : Input) (free : Finset Node) (c : Node) :
    (p.runsFrom input free c).Pairwise fun path path' => p.choices path < p.choices path' := by
  induction free, c using runsFrom.induct with
  | case1 free c hfree ih =>
    rw [runsFrom_of_mem hfree]
    split
    · next haccepts =>
      rw [successors_of_accept (instr_of_accepts haccepts)]
      exact List.pairwise_singleton _ _
    · rw [List.nil_append, List.pairwise_flatMap]
      have hhead : ∀ {d path}, path ∈ p.runsFrom input (free.erase c) d → path.head? = some d :=
        fun hmem => (mem_runsFrom_iff.mp hmem).1
      constructor
      · intro d _
        rw [List.pairwise_map]
        refine (ih d).imp_of_mem fun hpath hpath' hlt => ?_
        rw [choices_cons (hhead hpath), choices_cons (hhead hpath')]
        exact List.append_left_lt hlt
      · refine (pairwise_choice hp input.haystack c).imp fun hchoice run hrun run' hrun' => ?_
        obtain ⟨path, hpath, rfl⟩ := List.mem_map.mp hrun
        obtain ⟨path', hpath', rfl⟩ := List.mem_map.mp hrun'
        rw [choices_cons (hhead hpath), choices_cons (hhead hpath'), hchoice.1, hchoice.2]
        exact List.cons_lt_cons_iff.mpr (Or.inl Bool.false_lt_true)
  | case2 free c hfree =>
    rw [runsFrom_of_notMem hfree]
    exact List.Pairwise.nil

/-! ## The runs from a start -/

/-- A path to a match keeps to the nodes of the search. -/
theorem mem_nodes_of_isChain {path : List Node} (hhead : path.head? = some c)
    (hstart : input.start ≤ c.2) (hsize : c.2 ≤ input.haystack.size)
    (hchain : path.IsChain fun c d => d ∈ p.successors input.haystack c)
    (haccepts : ∃ d, path.getLast? = some d ∧ p.accepts input d) :
    ∀ d ∈ path, d ∈ p.nodes input := by
  induction path generalizing c with
  | nil => exact List.forall_mem_nil _
  | cons c' rest ih =>
    obtain rfl : c' = c := Option.some.inj hhead
    cases rest with
    | nil =>
      obtain ⟨d, hlast, haccepts⟩ := haccepts
      obtain rfl : c' = d := Option.some.inj hlast
      rw [List.forall_mem_singleton, mem_nodes]
      exact ⟨lt_size_of_accepts haccepts, hstart, hsize⟩
    | cons d rest =>
      obtain ⟨hd, hchain⟩ := List.isChain_cons_cons.mp hchain
      rw [List.getLast?_cons_cons] at haccepts
      exact List.forall_mem_cons.mpr
        ⟨mem_nodes.mpr ⟨lt_size_of_mem_successors hd, hstart, hsize⟩,
          ih rfl (Nat.le_trans hstart (le_of_mem_successors hd))
            (le_size_of_mem_successors hsize hd) hchain haccepts⟩

variable {start : Nat} {path : List Node}

theorem mem_runsFrom_nodes (hstart : input.start ≤ start) (hsize : start ≤ input.haystack.size) :
    path ∈ p.runsFrom input (p.nodes input) (0, start) ↔ p.IsRun input start path := by
  rw [mem_runsFrom_iff]
  constructor
  · rintro ⟨hhead, hchain, hnodup, -, haccepts⟩
    exact ⟨hhead, hchain, hnodup, haccepts⟩
  · rintro ⟨hhead, hchain, hnodup, haccepts⟩
    exact ⟨hhead, hchain, hnodup, mem_nodes_of_isChain hhead hstart hsize hchain haccepts, haccepts⟩

/-- What is written along a path that ends with a match says where it began and where it ends. -/
theorem start_stop_written (hp : p.Regular) {s : Slots} (hbegun : IsBegun p start c s)
    (hhead : path.head? = some c)
    (hchain : path.IsChain fun c d => d ∈ p.successors input.haystack c)
    (haccepts : ∃ d, path.getLast? = some d ∧ p.accepts input d) :
    (p.written s path).start = start ∧ (p.written s path).stop = stopOf path := by
  induction path generalizing c s with
  | nil => cases hhead
  | cons c' rest ih =>
    obtain rfl : c' = c := Option.some.inj hhead
    cases rest with
    | nil =>
      obtain ⟨d, hlast, haccepts⟩ := haccepts
      obtain rfl : c' = d := Option.some.inj hlast
      rw [written, List.foldl_cons, List.foldl_nil, stored_of_accepts haccepts]
      exact hbegun.start_stop_eq hp (instr_of_accepts haccepts)
    | cons d rest =>
      obtain ⟨hd, hchain⟩ := List.isChain_cons_cons.mp hchain
      rw [List.getLast?_cons_cons] at haccepts
      obtain ⟨hstart, hstop⟩ := ih (hbegun.next hp hd) rfl hchain haccepts
      refine ⟨hstart, hstop.trans ?_⟩
      rw [stopOf, stopOf, List.getLast?_cons_cons]

/-- Two runs from a start that choose alike are one. -/
theorem IsRun.eq_of_choices_eq (hp : p.Regular) (hstart : input.start ≤ start)
    (hsize : start ≤ input.haystack.size) {path' : List Node} (h : p.IsRun input start path)
    (h' : p.IsRun input start path') (heq : p.choices path = p.choices path') : path = path' := by
  have hordered := pairwise_runsFrom hp input (p.nodes input) (0, start)
  have hdistinct : ((p.runsFrom input (p.nodes input) (0, start)).map p.choices).Nodup :=
    List.pairwise_map.mpr (hordered.imp ne_of_lt)
  exact List.inj_on_of_nodup_map hdistinct ((mem_runsFrom_nodes hstart hsize).mpr h)
    ((mem_runsFrom_nodes hstart hsize).mpr h') heq

/-- Only one run is preferred. -/
theorem IsPreferred.unique (hp : p.Regular) (hstart : input.start ≤ start)
    (hsize : start ≤ input.haystack.size) {path' : List Node} (h : p.IsPreferred input start path)
    (h' : p.IsPreferred input start path') : path = path' := by
  have hstop : p.longest → stopOf path = stopOf path' := fun hlongest =>
    Nat.le_antisymm (h'.last hlongest path h.isRun) (h.last hlongest path' h'.isRun)
  refine h.isRun.eq_of_choices_eq hp hstart hsize h'.isRun (le_antisymm ?_ ?_)
  · exact not_lt.mp (h.first path' h'.isRun fun hlongest => (hstop hlongest).symm)
  · exact not_lt.mp (h'.first path h.isRun hstop)

end Program

namespace Search

open Program (stopOf)

variable {p : Program} {input : Input} {start : Nat}

theorem matchesAt_eq_map_written (p : Program) (input : Input) (start : Nat) :
    matchesAt p input start = (p.runsFrom input (p.nodes input) (0, start)).map
      (p.written (Slots.blank (input.slotsFor p))) :=
  Program.map_snd_results_eq (p.nodes input) (0, start) (Slots.blank (input.slotsFor p))

theorem matchesAt_eq_nil_iff_forall_not_isRun (hstart : input.start ≤ start)
    (hsize : start ≤ input.haystack.size) :
    matchesAt p input start = [] ↔ ∀ path, ¬ p.IsRun input start path := by
  rw [matchesAt_eq_map_written, List.map_eq_nil_iff, List.eq_nil_iff_forall_not_mem]
  exact forall_congr' fun path => not_congr (Program.mem_runsFrom_nodes hstart hsize)

/-- What is written along a run says where it starts and where it ends. -/
theorem start_stop_written_of_isRun (hp : p.Regular) {path : List Node}
    (hrun : p.IsRun input start path) :
    (p.written (Slots.blank (input.slotsFor p)) path).start = start ∧
      (p.written (Slots.blank (input.slotsFor p)) path).stop = stopOf path :=
  Program.start_stop_written hp (.blank hp (two_le_slotsFor p input) start) hrun.head hrun.chain
    hrun.accepts

/-- The match that is kept of those from a start is written along its preferred run. -/
theorem exists_isPreferred_of_outcome_eq_some (hp : p.Regular) (hstart : input.start ≤ start)
    (hsize : start ≤ input.haystack.size) {m : Slots}
    (hm : outcome p.longest none (matchesAt p input start) = some m) :
    ∃ path, p.IsPreferred input start path ∧
      p.written (Slots.blank (input.slotsFor p)) path = m := by
  have hends : ∀ {path}, p.IsRun input start path →
      (p.written (Slots.blank (input.slotsFor p)) path).stop = stopOf path := fun hrun =>
    (start_stop_written_of_isRun hp hrun).2
  have hbegins : ∀ x ∈ matchesAt p input start, ∀ y ∈ matchesAt p input start,
      x.start = y.start := fun x hx y hy =>
    (start_of_mem_matchesAt hp hx).trans (start_of_mem_matchesAt hp hy).symm
  obtain ⟨as, bs, happend, has, hbs⟩ := exists_append_of_outcome_eq_some hbegins hm
  rw [matchesAt_eq_map_written] at happend
  obtain ⟨before, rest, hruns, rfl, hrest⟩ := List.map_eq_append_iff.mp happend
  obtain ⟨path, behind, rfl, rfl, rfl⟩ := List.map_eq_cons_iff.mp hrest
  have hmem : ∀ {path'}, p.IsRun input start path' ↔ path' ∈ before ++ path :: behind := by
    intro path'
    rw [← hruns, Program.mem_runsFrom_nodes hstart hsize]
  have hrun : p.IsRun input start path := hmem.mpr (by simp)
  have hbefore : ∀ path' ∈ before, p.longest ∧ stopOf path' < stopOf path := by
    intro path' hpath'
    have := has _ (List.mem_map_of_mem hpath')
    rwa [hends hrun, hends (hmem.mpr (List.mem_append_left _ hpath'))] at this
  have hbehind : ∀ path' ∈ behind, p.longest → stopOf path' ≤ stopOf path := by
    intro path' hpath'
    have := hbs _ (List.mem_map_of_mem hpath')
    rwa [hends hrun, hends (hmem.mpr (List.mem_append_right _ (List.mem_cons_of_mem _ hpath')))]
      at this
  refine ⟨path, ⟨hrun, fun hlongest path' hrun' => ?_, fun path' hrun' hstop => ?_⟩, rfl⟩
  · rcases List.mem_append.mp (hmem.mp hrun') with hpath' | hpath'
    · exact Nat.le_of_lt (hbefore path' hpath').2
    · rcases List.mem_cons.mp hpath' with rfl | hpath'
      · exact Nat.le_refl _
      · exact hbehind path' hpath' hlongest
  · rcases List.mem_append.mp (hmem.mp hrun') with hpath' | hpath'
    · obtain ⟨hlongest, hlt⟩ := hbefore path' hpath'
      exact absurd (hstop hlongest) (Nat.ne_of_lt hlt)
    · rcases List.mem_cons.mp hpath' with rfl | hpath'
      · exact lt_irrefl _
      · have hordered := Program.pairwise_runsFrom hp input (p.nodes input) (0, start)
        rw [hruns, List.pairwise_append, List.pairwise_cons] at hordered
        exact lt_asymm (hordered.2.1.1 path' hpath')

theorem mem_startsFrom_iff_isAdmissible :
    start ∈ startsFrom p input input.start ↔ p.IsAdmissible input start :=
  mem_startsFrom_start.trans ⟨fun ⟨hstart, hp⟩ => ⟨hstart, hp⟩, fun hstart => ⟨hstart.1, hstart.2⟩⟩

/-- What is written along the preferred run is kept. -/
theorem outcome_matchesAt_eq_some_of_isPreferred (hp : p.Regular) (hstart : input.start ≤ start)
    (hsize : start ≤ input.haystack.size) {path : List Node}
    (hpath : p.IsPreferred input start path) :
    outcome p.longest none (matchesAt p input start) =
      some (p.written (Slots.blank (input.slotsFor p)) path) := by
  have hsome : outcome p.longest none (matchesAt p input start) ≠ none := by
    rw [Ne, outcome_eq_none_iff, matchesAt_eq_nil_iff_forall_not_isRun hstart hsize]
    exact fun hnone => hnone path hpath.isRun
  obtain ⟨m, hm⟩ := Option.ne_none_iff_exists'.mp hsome
  obtain ⟨path', hpath', rfl⟩ := exists_isPreferred_of_outcome_eq_some hp hstart hsize hm
  rw [hm, hpath.unique hp hstart hsize hpath']

/-- The match that is kept of those from a start is written along its preferred run. -/
theorem outcome_matchesAt_eq_some_iff (hp : p.Regular) (hstart : p.IsAdmissible input start)
    {m : Slots} :
    outcome p.longest none (matchesAt p input start) = some m ↔
      ∃ path, p.IsPreferred input start path ∧
        p.written (Slots.blank (input.slotsFor p)) path = m := by
  refine ⟨exists_isPreferred_of_outcome_eq_some hp hstart.le hstart.le_size, ?_⟩
  rintro ⟨path, hpath, rfl⟩
  exact outcome_matchesAt_eq_some_of_isPreferred hp hstart.le hstart.le_size hpath

/-- The search in lockstep finds what is written along the preferred run of the first start that has
one, and passes over no start that has one. -/
theorem inLockstep_prefers_first_run {o : ParserOptions} {pattern : String} {e : Expr}
    (hparse : Expr.parse o pattern = .ok e) (longest : Bool) (input : Input) {c : Cache}
    (hc : c.IsReachable) :
    ((inLockstep (.ofExpr longest e) input c).1 = none ↔
      ∀ start, (Program.ofExpr longest e).IsAdmissible input start →
        ∀ path, ¬ (Program.ofExpr longest e).IsRun input start path) ∧
    (∀ captures, (inLockstep (.ofExpr longest e) input c).1 = some captures ↔
      ∃ start path, (Program.ofExpr longest e).IsAdmissible input start ∧
        (Program.ofExpr longest e).IsPreferred input start path ∧
        (∀ start' < start, (Program.ofExpr longest e).IsAdmissible input start' →
          ∀ path', ¬ (Program.ofExpr longest e).IsRun input start' path') ∧
        Captures.ofSlots (Program.ofExpr longest e).slotCount
          ((Program.ofExpr longest e).written
            (Slots.blank (input.slotsFor (.ofExpr longest e))) path) = captures) ∧
    ∀ pos start, input.start ≤ pos → pos ≤ start → start ≤ input.haystack.size →
      (∀ i, Lockstep.candidate? (.ofExpr longest e) input.haystack pos = some i → start < i) →
      ∀ path, ¬ (Program.ofExpr longest e).IsRun input start path := by
  have he := Expr.wellFormed_of_parse hparse
  have hp := Program.regular_ofExpr longest he
  have hs := Program.summarized_ofExpr longest e
  have hfound : (inLockstep (.ofExpr longest e) input c).1 = _ :=
    withEngine_eq_best? longest he .lockstep (isMarked_of_isReachable hc)
  have hnil : ∀ start, (Program.ofExpr longest e).IsAdmissible input start →
      (matchesAt (.ofExpr longest e) input start = [] ↔
        ∀ path, ¬ (Program.ofExpr longest e).IsRun input start path) := fun start hstart =>
    matchesAt_eq_nil_iff_forall_not_isRun hstart.le hstart.le_size
  refine ⟨?_, fun captures => ?_, fun pos start hpos hle hsize hbefore => ?_⟩
  · rw [hfound, Option.map_eq_none_iff, best?_eq_none_iff]
    refine forall_congr' fun start => ?_
    rw [mem_startsFrom_iff_isAdmissible]
    exact forall_congr' fun hstart => hnil start hstart
  · rw [hfound, Option.map_eq_some_iff]
    simp only [best?_eq_some_iff, mem_startsFrom_iff_isAdmissible]
    constructor
    · rintro ⟨m, ⟨start, hstart, hm, hbefore⟩, rfl⟩
      obtain ⟨path, hpath, rfl⟩ := (outcome_matchesAt_eq_some_iff hp hstart).mp hm
      exact ⟨start, path, hstart, hpath,
        fun start' hlt hstart' => (hnil start' hstart').mp (hbefore start' hstart' hlt), rfl⟩
    · rintro ⟨start, path, hstart, hpath, hbefore, rfl⟩
      exact ⟨_, ⟨start, hstart, (outcome_matchesAt_eq_some_iff hp hstart).mpr ⟨path, hpath, rfl⟩,
        fun start' hstart' hlt => (hnil start' hstart').mpr (hbefore start' hlt hstart')⟩, rfl⟩
  · exact (matchesAt_eq_nil_iff_forall_not_isRun (Nat.le_trans hpos hle) hsize).mp
      (Lockstep.matchesAt_of_candidate? hs hpos hle hsize hbefore)

/-- In `ab` a run leads past both characters, so a match is found along a preferred run. -/
theorem inLockstep_repeatedGroup_prefers_first_run :
    Expr.parse {} "(a|b)*" = .ok .repeatedGroup ∧
      ∃ captures start path,
        (inLockstep (.ofExpr false .repeatedGroup) { haystack := "ab".toUTF8 } {}).1 =
          some captures ∧
        (Program.ofExpr false .repeatedGroup).IsPreferred { haystack := "ab".toUTF8 } start path ∧
        Captures.ofSlots 4 ((Program.ofExpr false .repeatedGroup).written (Slots.blank 4) path) =
          captures := by
  refine ⟨Expr.parse_repeatedGroup, ?_⟩
  obtain ⟨hnone, hsome, -⟩ := inLockstep_prefers_first_run Expr.parse_repeatedGroup false
    { haystack := "ab".toUTF8 } .empty
  cases hfound : (inLockstep (.ofExpr false .repeatedGroup) { haystack := "ab".toUTF8 } {}).1 with
  | none =>
    have hstart :
        (Program.ofExpr false .repeatedGroup).IsAdmissible { haystack := "ab".toUTF8 } 0 :=
      ⟨⟨Nat.le_refl 0, Nat.zero_le _, fun _ => rfl, by decide⟩, fun _ => rfl⟩
    have hrun : (Program.ofExpr false .repeatedGroup).IsRun { haystack := "ab".toUTF8 } 0
        [(0, 0), (1, 0), (2, 0), (3, 0), (4, 0), (6, 1), (1, 1), (2, 1), (3, 1), (5, 1), (6, 2),
          (1, 2), (7, 2), (8, 2)] :=
      ⟨rfl, by decide +kernel, by decide, (8, 2), rfl, by decide +kernel⟩
    exact absurd hrun (hnone.mp hfound 0 hstart _)
  | some captures =>
    obtain ⟨start, path, -, hpath, -, hwritten⟩ := (hsome captures).mp hfound
    exact ⟨captures, start, path, rfl, hpath, hwritten⟩

end Search
end LinearRegex
