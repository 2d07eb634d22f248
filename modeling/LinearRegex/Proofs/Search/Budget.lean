import LinearRegex.Proofs.Expr.WellFormed
import LinearRegex.Proofs.Search.Backtrack
import LinearRegex.Search.Engine

/-!
# What a search by backtracking costs

All visits of a search by backtracking are to nodes, and every node has a number of its own below
the number of marks.  A step that carries a visit out marks its node for good, from whatever start
it is visited, and no step removes a mark.  So what is carried out in the steps of a search are
different nodes, and there are not more of them than marks (`StaysWithinBudget`).
-/

namespace LinearRegex
namespace Backtrack

/-- The node that the next step looks up among the marks. -/
def Config.lookup? (c : Config) : Option Node :=
  match c.phase, c.tasks with
  | .follow _ _, .visit a :: _ => some a
  | _, _ => none

/-- The node that the next step carries out. -/
def Config.executed? (input : Input) (c : Config) : Option Node :=
  c.lookup?.filter fun a => c.seen.isFree (key input a.1 a.2)

variable {p : Program} {input : Input} {c : Config} {a : Node} {m : Memory}

/-! ## One step -/

theorem mem_lookup?_iff :
    a ∈ c.lookup? ↔
      ∃ next best? rest, c.phase = .follow next best? ∧ c.tasks = .visit a :: rest := by
  unfold Config.lookup?
  split
  · next next best? b rest hphase htasks =>
    simp [hphase, htasks]
  · next hnone =>
    constructor
    · nofun
    · rintro ⟨next, best?, rest, hphase, htasks⟩
      exact (hnone next best? a rest hphase htasks).elim

theorem mem_executed?_iff :
    a ∈ c.executed? input ↔ a ∈ c.lookup? ∧ c.seen.isFree (key input a.1 a.2) := by
  rw [Config.executed?, Option.mem_def, Option.filter_eq_some_iff, Option.mem_def]

theorem step_of_follow {next : Nat} {best? : Option Slots} (h : c.phase = .follow next best?) :
    step p input c = follow p input next best? c := by
  rw [step, h]

/-- The step carries out the instruction of the node, and has marked the node before. -/
theorem step_of_mem_executed? (p : Program) (h : a ∈ c.executed? input) :
    ∃ next best? rest,
      step p input c = execute p input next best? a.1 a.2 (c.enter input a.1 a.2 rest) := by
  obtain ⟨hlookup, hfree⟩ := mem_executed?_iff.mp h
  obtain ⟨next, best?, rest, hphase, htasks⟩ := mem_lookup?_iff.mp hlookup
  refine ⟨next, best?, rest, ?_⟩
  rw [step_of_follow hphase, follow, htasks]
  exact if_pos hfree

/-- A node that is looked up and not carried out is dropped. -/
theorem step_of_notMem_executed? (p : Program) (hlookup : a ∈ c.lookup?)
    (hnot : a ∉ c.executed? input) :
    step p input c = .next { c with tasks := c.tasks.tail } := by
  have hmarked : ¬ c.seen.isFree (key input a.1 a.2) :=
    fun hfree => hnot (mem_executed?_iff.mpr ⟨hlookup, hfree⟩)
  obtain ⟨next, best?, rest, hphase, htasks⟩ := mem_lookup?_iff.mp hlookup
  rw [step_of_follow hphase, follow, htasks]
  exact if_neg hmarked

theorem seen_execute (p : Program) (input : Input) (next : Nat) (best? : Option Slots) (i pos : Nat)
    (c : Config) :
    (execute p input next best? i pos c).Preserves (·.seen = c.seen) fun _ => True := by
  fun_cases execute p input next best? i pos c <;> trivial

/-- Other steps leave the marks alone. -/
theorem seen_step_of_executed? (h : c.executed? input = none) :
    (step p input c).Preserves (·.seen = c.seen) fun _ => True := by
  fun_cases step p input c with
  | case1 pos hphase => fun_cases seek p input pos c <;> trivial
  | case2 next best? hphase =>
    fun_cases follow p input next best? c with
    | case4 i pos rest htasks hfree =>
      have hmem : (i, pos) ∈ c.executed? input :=
        mem_executed?_iff.mpr ⟨mem_lookup?_iff.mpr ⟨next, best?, rest, hphase, htasks⟩, hfree⟩
      rw [h] at hmem
      cases hmem
    | case1 => trivial
    | case2 => rfl
    | case3 => rfl
    | case5 => rfl

theorem Config.IsWithin.mem_of_lookup? (hc : c.IsWithin p input) (ha : a ∈ c.lookup?) :
    a ∈ p.nodes input := by
  obtain ⟨next, best?, rest, hphase, htasks⟩ := mem_lookup?_iff.mp ha
  exact hc.visits a (htasks ▸ List.mem_cons_self)

theorem Config.IsWithin.mem_freeNodes_of_executed? (hc : c.IsWithin p input)
    (ha : a ∈ c.executed? input) : a ∈ freeNodes p input c.seen := by
  obtain ⟨hlookup, hfree⟩ := mem_executed?_iff.mp ha
  exact mem_freeNodes.mpr ⟨hc.mem_of_lookup? hlookup, hfree⟩

/-- What is carried out is free before the step only, and nothing becomes free. -/
theorem Config.IsWithin.freeNodes_step (hc : c.IsWithin p input) :
    (Backtrack.step p input c).Preserves
      (fun c' => ∀ a, a ∈ freeNodes p input c'.seen →
        a ∈ freeNodes p input c.seen ∧ a ∉ c.executed? input) fun _ => True := by
  cases hexecuted : c.executed? input with
  | none =>
    refine (seen_step_of_executed? hexecuted).mono (fun c' hseen a ha => ?_) fun _ h => h
    exact ⟨hseen ▸ ha, nofun⟩
  | some node =>
    obtain ⟨next, best?, rest, hstep⟩ := step_of_mem_executed? p hexecuted
    have hnode := hc.mem_of_lookup? (mem_executed?_iff.mp hexecuted).1
    have hkept := seen_execute p input next best? node.1 node.2 (c.enter input node.1 node.2 rest)
    rw [hstep]
    refine hkept.mono (fun c' hseen a ha => ?_) fun _ h => h
    rw [hseen, seen_enter, freeNodes_mark hnode, Finset.mem_erase] at ha
    exact ⟨ha.2, fun heq => ha.1 (Option.some.inj heq).symm⟩

/-! ## The budget -/

/-- The states of a search, from the first to the last. -/
def states (p : Program) (input : Input) (m : Memory) : List Config :=
  (loop p input).trace (begin p input m)

/-- The nodes that a search carries out, in their order. -/
def executions (p : Program) (input : Input) (m : Memory) : List Node :=
  (states p input m).filterMap (Config.executed? input)

/-- A search looks up marks that there are, one for each node, carries no node out twice, and comes
to an end, where it has its answer.  What it looks up it carries out or drops. -/
structure StaysWithinBudget (p : Program) (input : Input) (m : Memory) : Prop where
  nodes : ∀ c ∈ states p input m, ∀ a ∈ c.lookup?, a ∈ p.nodes input
  inRange : ∀ c ∈ states p input m, ∀ a ∈ c.lookup?, key input a.1 a.2 < c.seen.size
  distinct : ∀ a ∈ p.nodes input, ∀ b ∈ p.nodes input,
    key input a.1 a.2 = key input b.1 b.2 → a = b
  carriesOut : ∀ c ∈ states p input m, ∀ a ∈ c.executed? input, ∃ next best? rest,
    step p input c = execute p input next best? a.1 a.2 (c.enter input a.1 a.2 rest)
  drops : ∀ c ∈ states p input m, ∀ a ∈ c.lookup?, a ∉ c.executed? input →
    step p input c = .next { c with tasks := c.tasks.tail }
  once : (executions p input m).Nodup
  length_executions : (executions p input m).length ≤ p.size * (input.length + 1)
  isTrace : (loop p input).IsTrace (begin p input m) (states p input m)
    ((loop p input).run (begin p input m))
  length_states : (states p input m).length ≤ (2 * p.size + 3) * (input.length + 1) + 2
  answer : (search p input m).1 =
    .ok (((loop p input).run (begin p input m)).1.map (Captures.ofSlots p.slotCount))

theorem card_nodes (hstart : input.start ≤ input.haystack.size) :
    (p.nodes input).card = p.size * (input.length + 1) := by
  have hcount : input.haystack.size + 1 - input.start = input.length + 1 := by
    rw [Input.length]
    omega
  rw [Program.nodes, Finset.card_product, Finset.card_range, Nat.card_Icc, hcount]

theorem bound_begin (hstart : input.start ≤ input.haystack.size) (hm : m.tasks = []) :
    (begin p input m).bound input = (2 * p.size + 3) * (input.length + 1) + 1 := by
  have hcount : input.haystack.size + 1 - input.start = input.length + 1 := by
    rw [Input.length]
    omega
  simp only [Config.bound, begin, Phase.bound, Marks.free_blank, hm, List.length_nil, hcount]
  ring

theorem staysWithinBudget_of_fits (hp : p.Regular) (hstart : input.start ≤ input.haystack.size)
    (hfits : fits p.size input.length) (hm : m.tasks = []) : StaysWithinBudget p input m := by
  have hbegin := isWithin_begin p input hm
  have hwithin : ∀ c ∈ states p input m, c.IsWithin p input :=
    (loop p input).forall_mem_trace (fun _ hc => hc.step hp) hbegin
  have hnodes : ∀ c ∈ states p input m, ∀ a ∈ c.lookup?, a ∈ p.nodes input :=
    fun c hc _ ha => (hwithin c hc).mem_of_lookup? ha
  obtain ⟨hnodup, hfree⟩ : (executions p input m).Nodup ∧
      ∀ a ∈ executions p input m, a ∈ freeNodes p input (begin p input m).seen :=
    (loop p input).nodup_filterMap_trace (fun c a => a ∈ freeNodes p input c.seen)
      (fun c hc a ha => hc.mem_freeNodes_of_executed? ha)
      (fun c hc => ((hc.step hp).and hc.freeNodes_step).mono (fun _ h => h) fun _ _ => trivial)
      hbegin
  refine ⟨hnodes, ?_, fun a ha b hb => key_inj ha hb, fun c _ a ha => step_of_mem_executed? p ha,
    fun c _ a ha hnot => step_of_notMem_executed? p ha hnot, hnodup, ?_,
    (loop p input).isTrace_trace _, ?_, ?_⟩
  · intro c hc a ha
    rw [(hwithin c hc).seen]
    exact key_lt (hnodes c hc a ha)
  · rw [← List.toFinset_card_of_nodup hnodup, ← card_nodes hstart]
    refine Finset.card_le_card fun a ha => ?_
    exact freeNodes_subset p input _ (hfree a (List.mem_toFinset.mp ha))
  · have hlength := (loop p input).length_trace_le (begin p input m)
    have hbound : (loop p input).bound (begin p input m) = _ := bound_begin hstart hm
    rwa [hbound] at hlength
  · rw [search, if_neg (Nat.not_lt.mpr hstart), if_pos hfits]

end Backtrack

namespace Search

variable {o : ParserOptions} {pattern : String} {e : Expr} {p : Program} {input : Input}

theorem fits_of_select {anchored : Bool}
    (h : Engine.select p.metrics input.length anchored = .backtrack) :
    Backtrack.fits p.size input.length := by
  unfold Engine.select at h
  split at h
  · cases h
  · split at h
    · cases h
    · split at h
      · next hfits => exact hfits
      · cases h

/-- Whatever was searched for before, a search by backtracking for a program that fits carries every
node out once at most, from whatever start it is visited, and so comes to an end within a budget of
262144 nodes.  A program that does not fit is refused, which never happens to one that this engine
is chosen for. -/
theorem backtrack_stays_within_budget (hparse : Expr.parse o pattern = .ok e) (longest : Bool)
    (history : List (Program × Input)) (input : Input)
    (hstart : input.start ≤ input.haystack.size) :
    (Backtrack.fits (Program.ofExpr longest e).size input.length →
      Backtrack.StaysWithinBudget (.ofExpr longest e) input (.after history) ∧
        (Backtrack.executions (.ofExpr longest e) input (.after history)).length ≤ 262144) ∧
    (¬ Backtrack.fits (Program.ofExpr longest e).size input.length →
      (Backtrack.search (.ofExpr longest e) input (.after history)).1 =
        .error ⟨(Program.ofExpr longest e).size, input.length⟩) ∧
    ∀ anchored,
      Engine.select (Program.ofExpr longest e).metrics input.length anchored = .backtrack →
        ∀ refusal,
          (Backtrack.search (.ofExpr longest e) input (.after history)).1 ≠ .error refusal := by
  have hp := Program.regular_ofExpr longest (Expr.wellFormed_of_parse hparse)
  refine ⟨?_, ?_, ?_⟩
  · intro hfits
    have hbudget := Backtrack.staysWithinBudget_of_fits hp hstart hfits
      (Backtrack.Memory.tasks_after history)
    rw [Backtrack.fits, Bool.and_eq_true, decide_eq_true_iff, decide_eq_true_iff] at hfits
    exact ⟨hbudget, Nat.le_trans hbudget.length_executions hfits.2⟩
  · intro hlarge
    rw [Backtrack.search, if_neg (Nat.not_lt.mpr hstart), if_neg hlarge]
  · intro anchored hselect
    exact Backtrack.fst_search_ne_error (fits_of_select hselect) _

/-- In `ab` the loop of `(a|b)*` comes back to its first instruction without consuming anything, and
is left there, also after the first match has been searched for. -/
theorem backtrack_repeatedGroup_stays_within_budget :
    Expr.parse {} "(a|b)*" = .ok .repeatedGroup ∧ 0 ≤ "ab".toUTF8.size ∧
      Backtrack.fits (Program.ofExpr true .repeatedGroup).size 2 ∧
      Backtrack.StaysWithinBudget (.ofExpr true .repeatedGroup) { haystack := "ab".toUTF8 }
        (.after [(.ofExpr false .repeatedGroup, { haystack := "ab".toUTF8 })]) := by
  have hfits : Backtrack.fits (Program.ofExpr true .repeatedGroup).size 2 := by decide
  have hbudget := backtrack_stays_within_budget Expr.parse_repeatedGroup true
    [(.ofExpr false .repeatedGroup, { haystack := "ab".toUTF8 })]
    { haystack := "ab".toUTF8 } (Nat.zero_le _)
  exact ⟨Expr.parse_repeatedGroup, Nat.zero_le _, hfits, (hbudget.1 hfits).1⟩

end Search
end LinearRegex
