import LinearRegex.Proofs.Program.Order
import LinearRegex.Proofs.Regex.Leftmost
import Mathlib.Data.List.MinMax

/-!
# Which match a regular expression prefers

A matcher that goes back goes through the ways of an expression in order and keeps the first one
that may end where it does (`Expr.waysFrom`).  If no unbounded repetition has a body that can match
the empty text, a search finds the same match with the same groups.
-/

namespace LinearRegex

/-- The way to keep: the first one or, if the longest match is asked for, the first of those that
end last. -/
def Ways.best? (longest : Bool) (bs : List Point) : Option Point :=
  if longest then bs.argmax (·.1) else bs.head?

/-- The ways of a match that starts at `start`, as group 0, and ends where the input lets it. -/
def Expr.waysFrom (e : Expr) (input : Input) (start : Nat) : List Point :=
  ((capture 0 none e).ways input.haystack (start, Slots.blank (2 * (e.captureCount + 1)))).filter
    fun b => input.mayEndAt b.1

theorem Captures.ofSlots_size (s : Slots) : ofSlots s.size s = ⟨s⟩ := by
  rw [ofSlots, Nat.sub_self, Slots.blank, Array.replicate_zero, Array.append_empty]

namespace Search

variable {e : Expr} {input : Input} {start : Nat}

/-- Where the slots of ways hold their ends, a search keeps the same as a matcher that goes back. -/
theorem outcome_map_snd {bs : List Point} (hstart : ∀ b ∈ bs, b.2.start = start)
    (hstop : ∀ b ∈ bs, b.2.stop = b.1) (longest : Bool) :
    outcome longest none (bs.map (·.2)) = (Ways.best? longest bs).map (·.2) := by
  cases longest with
  | false =>
    rw [outcome, if_neg Bool.false_ne_true, Option.or_none, List.head?_map]
    rfl
  | true =>
    rw [outcome, if_pos rfl, Ways.best?, if_pos rfl]
    induction bs using List.reverseRecOn with
    | nil => rfl
    | append_singleton bs b ih =>
      obtain ⟨hstart', hb⟩ := List.forall_mem_append.mp hstart
      obtain ⟨hstop', hb'⟩ := List.forall_mem_append.mp hstop
      rw [List.forall_mem_singleton] at hb hb'
      rw [List.map_append, List.foldl_append, ih hstart' hstop', List.argmax_concat]
      cases hbest : bs.argmax (·.1) with
      | none => rfl
      | some c =>
        have hc := List.argmax_mem hbest
        have hbetter : Lockstep.better (some c.2) b.2 = true ↔ c.1 < b.1 := by
          rw [better_some_iff, hb, hb', hstart' c hc, hstop' c hc]
          omega
        simp only [List.map_cons, List.map_nil, List.foldl_cons, List.foldl_nil, Option.map_some,
          keepBetter, hbetter]
        split <;> rfl

/-- The paths of a program from a start come to a match by the ways of its expression. -/
theorem results_eq_map_waysFrom (longest : Bool) (he : e.WellFormed) (hproductive : e.IsProductive)
    (hstart : input.start ≤ start) (hsize : start ≤ input.haystack.size) :
    (Program.ofExpr longest e).results input (0, start) (Slots.blank (2 * (e.captureCount + 1))) =
      (e.waysFrom input start).map fun b => ((e.bytewise.size + 2, b.1), b.2) := by
  obtain ⟨hcode, haccept⟩ := Program.hasCode_programCode longest e
  have hbytewise : (ByteExpr.capture 0 e.bytewise).IsProductive input.haystack :=
    Expr.isProductive_bytewise (e := e) he hproductive
  have hways : ∀ a, (ByteExpr.capture 0 e.bytewise).ways input.haystack a =
      (Expr.capture 0 none e).ways input.haystack a := fun a => by
    rw [ByteExpr.ways, Expr.ways_bytewise he, Expr.ways]
  have hends : ∀ j, ((Program.ofExpr longest e).graph input.haystack).Terminates
      (e.bytewise.size + 2, j) := by
    intro j
    have hnil : (Program.ofExpr longest e).successors input.haystack
        (e.bytewise.size + 2, j) = [] := Program.successors_of_accept haccept
    exact .of_succ (List.eq_nil_iff_forall_not_mem.mp hnil · |>.elim)
  obtain ⟨-, hresults⟩ := ByteExpr.isOrdered_code (.capture 0 e.bytewise) hbytewise
    (a := (start, Slots.blank (2 * (e.captureCount + 1)))) hcode hstart hsize fun b _ => hends b.1
  rw [hways] at hresults
  rw [hresults, Expr.waysFrom, ← flatMap_ite_singleton]
  refine List.flatMap_congr fun b hb => ?_
  rw [← hways] at hb
  obtain ⟨hle, hb⟩ := ByteExpr.le_of_mem_ways hb hsize
  have hnode : (e.bytewise.size + 2, b.1) ∈ (Program.ofExpr longest e).nodes input :=
    Program.mem_nodes.mpr ⟨Program.lt_size_of_instr haccept, Nat.le_trans hstart hle, hb⟩
  rw [Program.results_of_terminates hnode (hends b.1), Program.successors_of_instr haccept,
    Instr.successors_accept, List.flatMap_nil, List.append_nil, Program.accepts_of_instr haccept]
  rfl

variable (longest : Bool) (he : e.WellFormed) (hproductive : e.IsProductive)
  (hgroups : input.wantsGroups)

include he hproductive hgroups

theorem matchesAt_eq_map_waysFrom (hstart : input.Admits start) :
    matchesAt (.ofExpr longest e) input start = (e.waysFrom input start).map (·.2) := by
  rw [matchesAt, Input.slotsFor, if_pos hgroups]
  have hresults := results_eq_map_waysFrom longest he hproductive hstart.le hstart.le_size
  exact (congrArg (List.map (·.2)) hresults).trans (List.map_map ..)

/-- The match that is kept of those from a start is the way to keep. -/
theorem outcome_matchesAt_eq (hstart : input.Admits start) :
    outcome longest none (matchesAt (.ofExpr longest e) input start) =
      (Ways.best? longest (e.waysFrom input start)).map (·.2) := by
  have hp := Program.regular_ofExpr longest he
  have hends : ∀ b ∈ e.waysFrom input start, b.2.start = start ∧ b.2.stop = b.1 := by
    intro b hb
    have hmem : ((e.bytewise.size + 2, b.1), b.2) ∈ (Program.ofExpr longest e).results input
        (0, start) (Slots.blank (2 * (e.captureCount + 1))) := by
      rw [results_eq_map_waysFrom longest he hproductive hstart.le hstart.le_size]
      exact List.mem_map_of_mem hb
    exact ((IsBegun.blank hp (by omega) start).of_mem_results hp hmem).start_stop_eq hp
      (Program.hasCode_programCode longest e).2
  rw [matchesAt_eq_map_waysFrom longest he hproductive hgroups hstart,
    outcome_map_snd (fun b hb => (hends b hb).1) (fun b hb => (hends b hb).2)]

end Search

namespace Regex

/-- If no unbounded repetition has a body that can match the empty text, a search finds the groups
of the first way from the first start that has any or, if the longest match is asked for, those of
the first of the ways from there that end last. -/
theorem search_prefers_first_way {flags : Flags} {limits : Limits} {pattern : String} {r : Regex}
    (hbuild : build flags limits pattern = .ok r) :
    ∃ e, Expr.parse (ParserOptions.ofFlags flags limits.nest) pattern = .ok e ∧
      (e.IsProductive → ∀ input : Input, input.wantsGroups →
        (r.search input = none ↔ ∀ start, input.Admits start → e.waysFrom input start = []) ∧
        ∀ captures, r.search input = some captures ↔
          ∃ start, input.Admits start ∧
            (∀ start' < start, input.Admits start' → e.waysFrom input start' = []) ∧
            ∃ stop, Ways.best? flags.longest (e.waysFrom input start) =
              some (stop, captures.slots)) := by
  obtain ⟨e, hparse, he, hsearch⟩ := exists_search_eq_of_build hbuild
  have hs := Program.summarized_ofExpr flags.longest e
  refine ⟨e, hparse, fun hproductive input hgroups => ?_⟩
  have hnil : ∀ start, input.Admits start →
      (Search.matchesAt (.ofExpr flags.longest e) input start = [] ↔
        e.waysFrom input start = []) := by
    intro start hstart
    rw [Search.matchesAt_eq_map_waysFrom flags.longest he hproductive hgroups hstart,
      List.map_eq_nil_iff]
  constructor
  · rw [hsearch, Option.map_eq_none_iff, Search.best?_start_eq_none_iff hs]
    exact forall_congr' fun start => forall_congr' fun hstart => hnil start hstart
  · intro captures
    have hcaptures : ∀ {start m}, input.Admits start →
        Search.outcome flags.longest none
          (Search.matchesAt (.ofExpr flags.longest e) input start) = some m →
        Captures.ofSlots (Program.ofExpr flags.longest e).slotCount m = ⟨m⟩ := by
      intro start m hstart hkept
      have hsize := Search.size_of_mem_matchesAt (Search.mem_of_outcome_eq_some hkept)
      rw [Input.slotsFor, if_pos hgroups] at hsize
      rw [← hsize, Captures.ofSlots_size]
    rw [hsearch, Option.map_eq_some_iff]
    constructor
    · rintro ⟨m, hbest, rfl⟩
      obtain ⟨start, hstart, hkept, hbefore⟩ := (Search.best?_start_eq_some_iff hs).mp hbest
      rw [hcaptures hstart hkept]
      refine ⟨start, hstart, fun start' hlt hstart' =>
        (hnil start' hstart').mp (hbefore start' hlt hstart'), ?_⟩
      obtain ⟨⟨stop, s⟩, hway, rfl⟩ := Option.map_eq_some_iff.mp
        ((Search.outcome_matchesAt_eq flags.longest he hproductive hgroups hstart).symm.trans hkept)
      exact ⟨stop, hway⟩
    · rintro ⟨start, hstart, hbefore, stop, hway⟩
      have hkept := Search.outcome_matchesAt_eq flags.longest he hproductive hgroups hstart
      rw [hway, Option.map_some] at hkept
      refine ⟨captures.slots, (Search.best?_start_eq_some_iff hs).mpr ⟨start, hstart, hkept,
        fun start' hlt hstart' => (hnil start' hstart').mpr (hbefore start' hlt hstart')⟩, ?_⟩
      exact hcaptures hstart hkept

/-- In `ab` the first way takes both characters, and the group holds the second one. -/
theorem search_repeatedGroup_prefers_first_way :
    ∃ r, build { longest := false } {} "(a|b)*" = .ok r ∧ Expr.repeatedGroup.IsProductive ∧
      r.search { haystack := "ab".toUTF8 } = some ⟨#[some 0, some 2, some 1, some 2]⟩ := by
  have hproductive : Expr.repeatedGroup.IsProductive := by
    simp [Expr.repeatedGroup, Expr.IsProductive, Expr.AllProductive, Expr.Matches,
      Expr.MatchesSome, Spells, Utf8.encodeAll, Utf8.encode, String.utf8EncodeChar]
  refine ⟨_, build_repeatedGroup false, hproductive, ?_⟩
  obtain ⟨e, hparse, hsearch⟩ := search_prefers_first_way (build_repeatedGroup false)
  obtain rfl : Expr.repeatedGroup = e := Except.ok.inj (Expr.parse_repeatedGroup.symm.trans hparse)
  refine ((hsearch hproductive { haystack := "ab".toUTF8 } rfl).2 _).mpr ⟨0, ?_, ?_, 2, ?_⟩
  · exact ⟨Nat.le_refl 0, Nat.zero_le _, fun _ => rfl, by decide⟩
  · exact fun start hlt => absurd hlt (Nat.not_lt_zero start)
  · decide +kernel

end Regex
end LinearRegex
