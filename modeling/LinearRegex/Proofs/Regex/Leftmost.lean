import LinearRegex.Proofs.Program.Assembly
import LinearRegex.Proofs.Program.Compile
import LinearRegex.Proofs.Search.Engine
import LinearRegex.Regex.Basic

/-!
# What a regular expression finds

A regular expression finds a match just where its expression has one that the input lets it find
(`Expr.MatchesIn`), and of these one that starts first.  If the longest match is asked for, no other
match from there ends behind it.
-/

namespace LinearRegex

/-- The expression matches from `i` to `j`, and the input lets a search find this. -/
structure Expr.MatchesIn (e : Expr) (input : Input) (i j : Nat) : Prop where
  admits : input.Admits i
  stop_eq : input.anchoredEnd → j = input.haystack.size
  isMatch : e.Matches input.haystack i j

theorem Input.mayEndAt_iff {input : Input} {j : Nat} :
    input.mayEndAt j ↔ (input.anchoredEnd → j = input.haystack.size) := by
  rw [mayEndAt]
  cases input.anchoredEnd <;> simp

/-- The captures of a match hold what its slots do, and nothing else. -/
theorem Captures.offset?_ofSlots (count : Nat) (s : Slots) (k : Nat) :
    (ofSlots count s).slots.offset? k = s.offset? k := by
  rcases Nat.lt_or_ge k s.size with hk | hk
  · rw [Slots.offset?, ofSlots, Array.getElem?_append_left hk, Slots.offset?]
  · rw [Slots.offset?, ofSlots, Array.getElem?_append_right hk, Slots.offset?_of_size_le hk]
    exact Slots.offset?_blank _ _

theorem Captures.group?_eq_some_iff {c : Captures} {g : Nat} {s : Span} :
    c.group? g = some s ↔
      c.slots.offset? (2 * g) = some s.start ∧ c.slots.offset? (2 * g + 1) = some s.stop := by
  obtain ⟨i, j⟩ := s
  rw [group?]
  cases c.slots.offset? (2 * g) <;> cases c.slots.offset? (2 * g + 1) <;> simp

/-- The captures begin with the offsets of the match. -/
theorem Captures.group?_zero_ofSlots {count : Nat} {s : Slots} {i j : Nat}
    (hi : s.offset? 0 = some i) (hj : s.offset? 1 = some j) :
    (ofSlots count s).group? 0 = some ⟨i, j⟩ :=
  group?_eq_some_iff.mpr
    ⟨(offset?_ofSlots count s 0).trans hi, (offset?_ofSlots count s 1).trans hj⟩

theorem Captures.span_ofSlots {count : Nat} {s : Slots} {i j : Nat}
    (hi : s.offset? 0 = some i) (hj : s.offset? 1 = some j) : (ofSlots count s).span = ⟨i, j⟩ := by
  rw [span, group?_zero_ofSlots hi hj, Option.getD_some]

namespace Search

variable {e : Expr} {input : Input} {i j : Nat}

/-- The matches from a position end where those of the expression do. -/
theorem exists_mem_matchesAt_iff (longest : Bool) (he : e.WellFormed) (hi : input.Admits i) :
    (∃ m ∈ matchesAt (.ofExpr longest e) input i, m.stop = j) ↔ e.MatchesIn input i j := by
  have hp := Program.regular_ofExpr longest he
  have hblank := IsBegun.blank hp (two_le_slotsFor (.ofExpr longest e) input) i
  constructor
  · rintro ⟨_, hm, rfl⟩
    obtain ⟨⟨⟨k, j⟩, s⟩, ha, rfl⟩ := List.mem_map.mp hm
    obtain ⟨hreach, haccepts⟩ :=
      (Program.exists_mem_results_iff hi.le hi.le_size (Slots.blank _)).mp ⟨s, ha⟩
    have hat := Program.instr_of_accepts haccepts
    have hstop : s.stop = j := (hblank.of_mem_results hp ha).stop_eq hat
    rw [Program.accepts, Bool.and_eq_true, Input.mayEndAt_iff] at haccepts
    rw [hstop]
    exact ⟨hi, haccepts.2, (Expr.spans_bytewise_iff he).mp
      ((Program.reaches_accept_iff longest e).mp ⟨k, hreach, hat⟩)⟩
  · rintro ⟨-, hend, hmatch⟩
    obtain ⟨k, hreach, hat⟩ :=
      (Program.reaches_accept_iff longest e).mpr ((Expr.spans_bytewise_iff he).mpr hmatch)
    have haccepts : (Program.ofExpr longest e).accepts input (k, j) := by
      rw [Program.accepts_of_instr hat, Input.mayEndAt_iff.mpr hend]
      rfl
    obtain ⟨s, ha⟩ :=
      (Program.exists_mem_results_iff hi.le hi.le_size (Slots.blank _)).mpr ⟨hreach, haccepts⟩
    exact ⟨s, List.mem_map_of_mem ha, (hblank.of_mem_results hp ha).stop_eq hat⟩

theorem matchesAt_eq_nil_iff_forall_not_matchesIn (longest : Bool) (he : e.WellFormed)
    (hi : input.Admits i) :
    matchesAt (.ofExpr longest e) input i = [] ↔ ∀ j, ¬ e.MatchesIn input i j := by
  rw [List.eq_nil_iff_forall_not_mem]
  constructor
  · intro hnone j hmatch
    obtain ⟨m, hm, -⟩ := (exists_mem_matchesAt_iff longest he hi).mpr hmatch
    exact hnone m hm
  · intro hnone m hm
    exact hnone m.stop ((exists_mem_matchesAt_iff longest he hi).mp ⟨m, hm, rfl⟩)

theorem best?_eq_none_iff_forall_not_matchesIn (longest : Bool) (he : e.WellFormed) :
    best? (.ofExpr longest e) input input.start = none ↔ ∀ i j, ¬ e.MatchesIn input i j := by
  rw [best?_start_eq_none_iff (Program.summarized_ofExpr longest e)]
  constructor
  · intro hnone i j hmatch
    exact (matchesAt_eq_nil_iff_forall_not_matchesIn longest he hmatch.admits).mp
      (hnone i hmatch.admits) j hmatch
  · intro hnone i hi
    exact (matchesAt_eq_nil_iff_forall_not_matchesIn longest he hi).mpr (hnone i)

/-- What a search ought to find is a match of the expression, one that starts first and, if the
longest match is asked for, ends last of those from there. -/
theorem leftmost_of_best?_eq_some {longest : Bool} (he : e.WellFormed) {m : Slots}
    (hbest : best? (.ofExpr longest e) input input.start = some m) :
    ∃ i j, m.offset? 0 = some i ∧ m.offset? 1 = some j ∧ e.MatchesIn input i j ∧
      (∀ i' j', e.MatchesIn input i' j' → i ≤ i') ∧
      (longest → ∀ j', e.MatchesIn input i j' → j' ≤ j) := by
  have hp := Program.regular_ofExpr longest he
  have hs := Program.summarized_ofExpr longest e
  obtain ⟨i, hi, hkept, hbefore⟩ := (best?_start_eq_some_iff hs).mp hbest
  have hm := mem_of_outcome_eq_some hkept
  obtain ⟨hstart, hstop⟩ := offsets_of_mem_matchesAt hp hm
  refine ⟨i, m.stop, hstart, hstop, (exists_mem_matchesAt_iff longest he hi).mp ⟨m, hm, rfl⟩,
    fun i' j' hmatch => ?_, fun hlongest j' hmatch => ?_⟩
  · by_contra hlt
    have hnone := hbefore i' (Nat.lt_of_not_le hlt) hmatch.admits
    exact (matchesAt_eq_nil_iff_forall_not_matchesIn longest he hmatch.admits).mp hnone j' hmatch
  · obtain ⟨m', hm', rfl⟩ := (exists_mem_matchesAt_iff longest he hi).mpr hmatch
    exact stop_le_of_outcome_eq_some hlongest (fun x hx => start_of_mem_matchesAt hp hx) hkept hm'

end Search

namespace Regex

/-- What is built of an expression is its program, unless that has too many instructions. -/
theorem build_of_parse {flags : Flags} (limits : Limits) {pattern : String} {e : Expr}
    (hparse : Expr.parse (ParserOptions.ofFlags flags limits.nest) pattern = .ok e) :
    build flags limits pattern =
      if e.bytewise.programSize ≤ limits.size then
        .ok ⟨pattern, flags, .ofExpr flags.longest e⟩
      else .error (.tooLarge limits.size) := by
  rw [build, hparse]
  dsimp only
  rw [Program.compile_eq]
  by_cases hfits : e.bytewise.programSize ≤ limits.size
  · rw [if_pos hfits, if_pos hfits]
  · rw [if_neg hfits, if_neg hfits]

/-- A regular expression holds the program of the expression that its pattern is read as. -/
theorem exists_program_eq_of_build {flags : Flags} {limits : Limits} {pattern : String} {r : Regex}
    (hbuild : build flags limits pattern = .ok r) :
    ∃ e, Expr.parse (ParserOptions.ofFlags flags limits.nest) pattern = .ok e ∧ e.WellFormed ∧
      r.program = .ofExpr flags.longest e := by
  cases hparse : Expr.parse (ParserOptions.ofFlags flags limits.nest) pattern with
  | error e =>
    rw [build, hparse] at hbuild
    cases hbuild
  | ok e =>
    rw [build_of_parse limits hparse] at hbuild
    split at hbuild
    · cases hbuild
      exact ⟨e, rfl, Expr.wellFormed_of_parse hparse, rfl⟩
    · cases hbuild

/-- A regular expression searches for what its program ought to find. -/
theorem exists_search_eq_of_build {flags : Flags} {limits : Limits} {pattern : String} {r : Regex}
    (hbuild : build flags limits pattern = .ok r) :
    ∃ e, Expr.parse (ParserOptions.ofFlags flags limits.nest) pattern = .ok e ∧ e.WellFormed ∧
      ∀ input, r.search input = (Search.best? (.ofExpr flags.longest e) input input.start).map
        (Captures.ofSlots (Program.ofExpr flags.longest e).slotCount) := by
  obtain ⟨e, hparse, he, hprogram⟩ := exists_program_eq_of_build hbuild
  refine ⟨e, hparse, he, fun input => ?_⟩
  rw [search, hprogram]
  exact Search.search_eq_best? flags.longest he (Search.isMarked_of_isReachable .empty)

theorem build_empty : build {} {} "" = .ok ⟨"", {}, .ofExpr false .empty⟩ := by
  have hparse : Expr.parse (ParserOptions.ofFlags {} defaultNestLimit) "" = .ok .empty :=
    Expr.parse_empty
  exact build_of_parse {} hparse

theorem build_repeatedGroup (longest : Bool) :
    build { longest } {} "(a|b)*" =
      .ok ⟨"(a|b)*", { longest }, .ofExpr longest .repeatedGroup⟩ := by
  have hparse : Expr.parse (ParserOptions.ofFlags { longest } defaultNestLimit) "(a|b)*" =
      .ok .repeatedGroup := Expr.parse_repeatedGroup
  exact build_of_parse {} hparse

/-- A search finds a match if there is one, and what it finds is a match that starts first and, if
the longest match is asked for, ends last of those from there. -/
theorem search_finds_leftmost {flags : Flags} {limits : Limits} {pattern : String} {r : Regex}
    (hbuild : build flags limits pattern = .ok r) :
    ∃ e, Expr.parse (ParserOptions.ofFlags flags limits.nest) pattern = .ok e ∧ ∀ input,
      (r.search input = none ↔ ∀ i j, ¬ e.MatchesIn input i j) ∧
      ∀ captures, r.search input = some captures →
        ∃ i j, captures.group? 0 = some ⟨i, j⟩ ∧ e.MatchesIn input i j ∧
          (∀ i' j', e.MatchesIn input i' j' → i ≤ i') ∧
          (flags.longest → ∀ j', e.MatchesIn input i j' → j' ≤ j) := by
  obtain ⟨e, hparse, he, hsearch⟩ := exists_search_eq_of_build hbuild
  refine ⟨e, hparse, fun input => ⟨?_, fun captures hfound => ?_⟩⟩
  · rw [hsearch, Option.map_eq_none_iff,
      Search.best?_eq_none_iff_forall_not_matchesIn flags.longest he]
  · rw [hsearch, Option.map_eq_some_iff] at hfound
    obtain ⟨m, hbest, rfl⟩ := hfound
    obtain ⟨i, j, hstart, hstop, hmatch, hfirst, hlast⟩ :=
      Search.leftmost_of_best?_eq_some he hbest
    exact ⟨i, j, Captures.group?_zero_ofSlots hstart hstop, hmatch, hfirst, hlast⟩

/-- From the second character on, the longest match takes at least both that are left. -/
theorem search_repeatedGroup_finds_leftmost :
    ∃ r, build { longest := true } {} "(a|b)*" = .ok r ∧
      ∃ captures j, r.search { haystack := "cab".toUTF8, start := 1 } = some captures ∧
        captures.group? 0 = some ⟨1, j⟩ ∧ 3 ≤ j := by
  refine ⟨_, build_repeatedGroup true, ?_⟩
  obtain ⟨e, hparse, hsearch⟩ := search_finds_leftmost (build_repeatedGroup true)
  obtain rfl : Expr.repeatedGroup = e := Except.ok.inj (Expr.parse_repeatedGroup.symm.trans hparse)
  obtain ⟨hnone, hsome⟩ := hsearch { haystack := "cab".toUTF8, start := 1 }
  have hmatch : Expr.repeatedGroup.MatchesIn { haystack := "cab".toUTF8, start := 1 } 1 3 := by
    refine ⟨⟨Nat.le_refl 1, by decide, fun _ => rfl, by decide⟩, nofun, ?_⟩
    exact ⟨2, ⟨Nat.zero_le 2, nofun⟩, 2, Or.inl ⟨by decide, rfl⟩, 3,
      Or.inr (Or.inl ⟨by decide, rfl⟩), rfl⟩
  match hfound : search _ _ with
  | none => exact absurd hmatch (hnone.mp hfound 1 3)
  | some captures =>
    obtain ⟨i, j, hspan, hij, hfirst, hlast⟩ := hsome captures hfound
    obtain rfl : i = 1 := Nat.le_antisymm (hfirst 1 3 hmatch) hij.admits.le
    exact ⟨captures, j, rfl, hspan, hlast rfl 3 hmatch⟩

end Regex
end LinearRegex
