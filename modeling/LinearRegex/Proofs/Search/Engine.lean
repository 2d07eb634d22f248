import LinearRegex.Proofs.Search.Backtrack
import LinearRegex.Proofs.Search.Literal
import LinearRegex.Proofs.Search.Lockstep
import LinearRegex.Proofs.Search.OnePass
import LinearRegex.Search.Engine

/-!
# The choice of an engine

Whichever engine a search chooses, and where it can tell that there is no match without any, it
finds the match that it ought to find (`search_eq_best?`).  The same holds of every engine by
itself, so the choice shows in nothing but the time it takes: what backtracking, the one-pass table
and the literal answer is what the search in lockstep does.  A cache is only ever what searches
leave (`Cache.IsReachable`), and of such a cache the answers do not depend on what it holds.
-/

namespace LinearRegex

/-- A cache that some searches have left. -/
inductive Cache.IsReachable : Cache → Prop
  | empty : IsReachable {}
  | search {c : Cache} (p : Program) (input : Input) (h : IsReachable c) :
      IsReachable (Search.search p input c).2
  | withEngine {c : Cache} (engine : Engine) (p : Program) (input : Input) (h : IsReachable c) :
      IsReachable (Search.withEngine engine p input c).2

namespace Search

variable {p : Program} {input : Input} {c : Cache}

/-- What an engine does: it answers by itself, or leaves the search to the one in lockstep. -/
theorem withEngine_cases (engine : Engine) (p : Program) (input : Input) :
    withEngine engine p input = inLockstep p input ∨
      (∃ lit, p.literal? = some lit ∧
        withEngine engine p input = pure (literal lit p.slotCount input)) ∨
      (∃ t, p.onePass? = some t ∧ input.anchoredFor p ∧
        withEngine engine p input = pure (onePass t p input)) ∨
      ∃ captures?, backtrack p input = .ok captures? ∧
        withEngine engine p input = pure captures? := by
  cases engine with
  | literal =>
    simp only [withEngine]
    split
    · next lit hlit => exact Or.inr (Or.inl ⟨lit, hlit, rfl⟩)
    · exact Or.inl rfl
  | onePass =>
    simp only [withEngine]
    split
    · next t ht =>
      split
      · next hanchored => exact Or.inr (Or.inr (Or.inl ⟨t, ht, hanchored, rfl⟩))
      · exact Or.inl rfl
    · exact Or.inl rfl
  | backtrack =>
    simp only [withEngine]
    split
    · next captures? hok => exact Or.inr (Or.inr (Or.inr ⟨captures?, hok, rfl⟩))
    · exact Or.inl rfl
  | lockstep => exact Or.inl rfl

/-- What a search does: it tells that there is no match, or lets an engine answer. -/
theorem search_cases (p : Program) (input : Input) :
    search p input = pure none ∧
        (input.haystack.size < input.start ∨ (p.anchored ∧ 0 < input.start) ∨
          hasFirstByte p input = false) ∨
      ∃ engine, search p input = withEngine engine p input := by
  unfold search engine?
  split
  · next hnone =>
    split at hnone
    · next hlt => exact Or.inl ⟨rfl, Or.inl hlt⟩
    · cases hnone
  · next engine _ =>
    split
    · next hanchored =>
      rw [Bool.and_eq_true, decide_eq_true_eq] at hanchored
      exact Or.inl ⟨rfl, Or.inr (Or.inl hanchored)⟩
    · split
      · exact Or.inr ⟨engine, rfl⟩
      · next hfirst =>
        exact Or.inl ⟨rfl, Or.inr (Or.inr (Bool.eq_false_of_not_eq_true hfirst))⟩

theorem isMarked_withEngine (h : c.scratch.IsMarked) (engine : Engine) (p : Program)
    (input : Input) : (withEngine engine p input c).2.scratch.IsMarked := by
  rcases withEngine_cases engine p input with heq | ⟨_, -, heq⟩ | ⟨_, -, -, heq⟩ | ⟨_, -, heq⟩
  · rw [heq]
    exact isMarked_lockstep h p input
  all_goals
    rw [heq]
    exact h

theorem isMarked_search (h : c.scratch.IsMarked) (p : Program) (input : Input) :
    (search p input c).2.scratch.IsMarked := by
  rcases search_cases p input with ⟨heq, -⟩ | ⟨engine, heq⟩
  · rw [heq]
    exact h
  · rw [heq]
    exact isMarked_withEngine h engine p input

/-- The threads of a cache are marked, and nothing else is. -/
theorem isMarked_of_isReachable (h : c.IsReachable) : c.scratch.IsMarked := by
  induction h with
  | empty =>
    exact ⟨Lockstep.ThreadSet.isMarked_blank 0, Lockstep.ThreadSet.isMarked_blank 0⟩
  | search p input _ ih => exact isMarked_search ih p input
  | withEngine engine p input _ ih => exact isMarked_withEngine ih engine p input

/-- Every engine finds the match to be found. -/
theorem withEngine_eq_best? (longest : Bool) {e : Expr} (he : e.WellFormed) (engine : Engine)
    (hmarked : c.scratch.IsMarked) :
    (withEngine engine (.ofExpr longest e) input c).1 =
      (best? (.ofExpr longest e) input input.start).map
        (Captures.ofSlots (Program.ofExpr longest e).slotCount) := by
  have hp := Program.regular_ofExpr longest he
  have hs := Program.summarized_ofExpr longest e
  rcases withEngine_cases engine (.ofExpr longest e) input with
    heq | ⟨lit, hlit, heq⟩ | ⟨t, ht, hanchored, heq⟩ | ⟨captures?, hok, heq⟩
  · rw [heq]
    exact lockstep_eq hp hs hmarked
  · rw [heq]
    exact literal_eq he (amountsTo_of_literal? hs hlit)
  · rw [heq]
    exact onePass_eq hp hs ht hanchored
  · rw [heq]
    exact backtrack_eq_ok hp hs hok

/-- Where no byte stands that a match can start with, there is no match. -/
theorem best?_of_hasFirstByte (hs : p.Summarized) (h : hasFirstByte p input = false) :
    best? p input input.start = none := by
  unfold hasFirstByte at h
  cases hbytes : p.firstBytes? with
  | none =>
    rw [hbytes] at h
    cases h
  | some bytes =>
    rw [hbytes, Option.all_some] at h
    refine best?_eq_none fun start hmem => ?_
    obtain ⟨hstart, hsize, hadmits⟩ := mem_startsFrom.mp hmem
    refine matchesAt_eq_nil_of_firstBytes hs hbytes hstart hsize ?_
    split at h
    · next hanchored =>
      have heq : start = input.start := by
        simpa [hanchored] using (Bool.and_eq_true_iff.mp hadmits).1
      rw [heq, h]
    · rw [Option.isSome_eq_false_iff, Option.isNone_iff_eq_none] at h
      rcases Nat.lt_or_eq_of_le hsize with hlt | heq
      · exact Haystack.first?_eq_none h start hstart hlt
      · rw [ByteSet.containsAt, heq, getElem?_neg input.haystack _ (Nat.lt_irrefl _),
          Option.any_none]

/-- A search finds the match to be found. -/
theorem search_eq_best? (longest : Bool) {e : Expr} (he : e.WellFormed)
    (hmarked : c.scratch.IsMarked) :
    (search (.ofExpr longest e) input c).1 =
      (best? (.ofExpr longest e) input input.start).map
        (Captures.ofSlots (Program.ofExpr longest e).slotCount) := by
  have hs := Program.summarized_ofExpr longest e
  rcases search_cases (.ofExpr longest e) input with ⟨heq, hnone⟩ | ⟨engine, heq⟩
  · have hbest : best? (.ofExpr longest e) input input.start = none := by
      rcases hnone with hlt | ⟨hanchored, hpos⟩ | hfirst
      · refine best?_eq_none ?_
        rw [startsFrom_of_lt hlt]
        exact List.forall_mem_nil _
      · refine best?_eq_none fun start hmem => ?_
        obtain ⟨hstart, hsize, -⟩ := mem_startsFrom.mp hmem
        exact matchesAt_eq_nil_of_anchored hs hanchored hstart hsize
          (Nat.lt_of_lt_of_le hpos hstart)
      · exact best?_of_hasFirstByte hs hfirst
    rw [heq, hbest]
    rfl
  · rw [heq]
    exact withEngine_eq_best? longest he engine hmarked

/-- A search answers as a search in lockstep does, whatever it chooses and whatever searches have
gone before. -/
theorem search_eq_lockstep {o : ParserOptions} {pattern : String} {e : Expr}
    (hparse : Expr.parse o pattern = .ok e) (longest : Bool) (input : Input) {c c' : Cache}
    (hc : c.IsReachable) (hc' : c'.IsReachable) :
    (search (.ofExpr longest e) input c).1 =
      (withEngine .lockstep (.ofExpr longest e) input c').1 := by
  have he := Expr.wellFormed_of_parse hparse
  rw [search_eq_best? longest he (isMarked_of_isReachable hc),
    withEngine_eq_best? longest he .lockstep (isMarked_of_isReachable hc')]

/-- A search for the longest match, after another one that has left its cache. -/
theorem search_repeatedGroup_eq_lockstep :
    Expr.parse {} "(a|b)*" = .ok .repeatedGroup ∧
      (search (.ofExpr true .repeatedGroup) { haystack := "xab".toUTF8, start := 1 }
          (withEngine .lockstep (.ofExpr true .repeatedGroup) { haystack := "ba".toUTF8 } {}).2).1 =
        (withEngine .lockstep (.ofExpr true .repeatedGroup)
          { haystack := "xab".toUTF8, start := 1 } {}).1 :=
  ⟨Expr.parse_repeatedGroup,
    search_eq_lockstep Expr.parse_repeatedGroup true _ (.withEngine .lockstep _ _ .empty) .empty⟩

/-! ## Each engine by itself -/

section

variable {o : ParserOptions} {pattern : String} {e : Expr}

/-- A search by backtracking that is not refused answers as one in lockstep does, although its marks
outlive the start that they were made from. -/
theorem backtrack_eq_lockstep (hparse : Expr.parse o pattern = .ok e) (longest : Bool)
    (input : Input) (hc : c.IsReachable)
    (haccepted : ∀ refusal, backtrack (.ofExpr longest e) input ≠ .error refusal) :
    backtrack (.ofExpr longest e) input =
      .ok (withEngine .lockstep (.ofExpr longest e) input c).1 := by
  have he := Expr.wellFormed_of_parse hparse
  cases hbacktrack : backtrack (.ofExpr longest e) input with
  | error refusal => exact absurd hbacktrack (haccepted refusal)
  | ok captures? =>
    rw [backtrack_eq_ok (Program.regular_ofExpr longest he) (Program.summarized_ofExpr longest e)
      hbacktrack, withEngine_eq_best? longest he .lockstep (isMarked_of_isReachable hc)]

/-- In `xab` the longest match from the second byte on is found by backtracking too. -/
theorem backtrack_repeatedGroup_eq_lockstep :
    Expr.parse {} "(a|b)*" = .ok .repeatedGroup ∧
      (∀ refusal, backtrack (.ofExpr true .repeatedGroup)
        { haystack := "xab".toUTF8, start := 1 } ≠ .error refusal) ∧
      backtrack (.ofExpr true .repeatedGroup) { haystack := "xab".toUTF8, start := 1 } =
        .ok (withEngine .lockstep (.ofExpr true .repeatedGroup)
          { haystack := "xab".toUTF8, start := 1 } {}).1 := by
  have haccepted : ∀ refusal, backtrack (.ofExpr true .repeatedGroup)
      { haystack := "xab".toUTF8, start := 1 } ≠ .error refusal :=
    Backtrack.fst_search_ne_error (by decide) {}
  exact ⟨Expr.parse_repeatedGroup, haccepted,
    backtrack_eq_lockstep Expr.parse_repeatedGroup true _ .empty haccepted⟩

/-- The one-pass table answers a search that is bound to its start as the lockstep search does. -/
theorem onePass_eq_lockstep (hparse : Expr.parse o pattern = .ok e) (longest : Bool)
    (input : Input) (hc : c.IsReachable) {t : OnePass}
    (ht : (Program.ofExpr longest e).onePass? = some t)
    (hanchored : input.anchoredFor (.ofExpr longest e)) :
    onePass t (.ofExpr longest e) input =
      (withEngine .lockstep (.ofExpr longest e) input c).1 := by
  have he := Expr.wellFormed_of_parse hparse
  rw [onePass_eq (Program.regular_ofExpr longest he) (Program.summarized_ofExpr longest e) ht
    hanchored, withEngine_eq_best? longest he .lockstep (isMarked_of_isReachable hc)]

/-- The program of `(^)$` is bound to the start by itself, and its only path leaves both assertions
for its end. -/
theorem onePass_emptyText_eq_lockstep :
    ∃ e t, Expr.parse {} "(^)$" = .ok e ∧ (Program.ofExpr false e).onePass? = some t ∧
      Input.anchoredFor { haystack := "".toUTF8 } (.ofExpr false e) ∧
      onePass t (.ofExpr false e) { haystack := "".toUTF8 } =
        (withEngine .lockstep (.ofExpr false e) { haystack := "".toUTF8 } {}).1 := by
  have hparse : Expr.parse {} "(^)$" =
      .ok (.concat [.capture 1 none (.look .startText), .look .endText]) := by
    have hrun : (Parser.State.initial (ParserOptions.modes {}) "(^)$".toList).run {} =
        .ok (.concat [.capture 1 none (.look .startText), .look .endText]) :=
      (Parser.State.run_of_next rfl).trans <| (Parser.State.run_of_next rfl).trans <|
        (Parser.State.run_of_next rfl).trans <| (Parser.State.run_of_next rfl).trans <|
          Parser.State.run_of_finished rfl
    exact congrArg (Except.mapError (Fault.inPattern · "(^)$")) hrun
  have hsome : (Program.ofExpr false (.concat
      [.capture 1 none (.look .startText), .look .endText])).onePass?.isSome := by
    decide +kernel
  obtain ⟨t, ht⟩ := Option.isSome_iff_exists.mp hsome
  exact ⟨_, t, hparse, ht, rfl, onePass_eq_lockstep hparse false _ .empty ht rfl⟩

/-- A program that amounts to a literal matches where looking the literal up finds it. -/
theorem literal_eq_lockstep (hparse : Expr.parse o pattern = .ok e) (longest : Bool)
    (input : Input) (hc : c.IsReachable) {lit : LiteralPrefix}
    (hlit : (Program.ofExpr longest e).literal? = some lit) :
    literal lit (Program.ofExpr longest e).slotCount input =
      (withEngine .lockstep (.ofExpr longest e) input c).1 := by
  have he := Expr.wellFormed_of_parse hparse
  rw [literal_eq he (amountsTo_of_literal? (Program.summarized_ofExpr longest e) hlit),
    withEngine_eq_best? longest he .lockstep (isMarked_of_isReachable hc)]

/-- From inside the first character of `éé` on, the literal is the second one. -/
theorem literal_accented_eq_lockstep :
    Expr.parse {} "é" = .ok (.literal ['é'] false) ∧
      (Program.ofExpr false (.literal ['é'] false)).literal? = some ⟨[0xC3, 0xA9], true⟩ ∧
      literal ⟨[0xC3, 0xA9], true⟩ 2 { haystack := "éé".toUTF8, start := 1 } =
        (withEngine .lockstep (.ofExpr false (.literal ['é'] false))
          { haystack := "éé".toUTF8, start := 1 } {}).1 := by
  have hparse : Expr.parse {} "é" = .ok (.literal ['é'] false) := by
    have hrun : (Parser.State.initial (ParserOptions.modes {}) "é".toList).run {} =
        .ok (.literal ['é'] false) :=
      (Parser.State.run_of_next rfl).trans (Parser.State.run_of_finished rfl)
    exact congrArg (Except.mapError (Fault.inPattern · "é")) hrun
  have hlit : (Program.ofExpr false (.literal ['é'] false)).literal? =
      some ⟨[0xC3, 0xA9], true⟩ := rfl
  exact ⟨hparse, hlit, literal_eq_lockstep hparse false _ .empty hlit⟩

end

end Search
end LinearRegex
