import LinearRegex.Proofs.Regex.Leftmost
import LinearRegex.Proofs.Search.Repetition

/-!
# Stars and optional pluses

`x*` and `(?:x+)?` match the same texts (`matches_optionalPlus_iff`), so the searches for them find
a match of the same inputs, which starts at the same position.  They need not find the same one:
`(?:x+)?` may take `x` over nothing, which `x*` never does.  This is the only difference, and it
shows only if entering `x` is preferred (`star_agrees_with_optionalPlus`).
-/

namespace LinearRegex
namespace Expr

variable {x : Expr} {greedy : Bool}

theorem wellFormed_star (greedy : Bool) (hx : x.WellFormed) : (star greedy x).WellFormed :=
  ⟨nofun, hx⟩

theorem wellFormed_optionalPlus (greedy : Bool) (hx : x.WellFormed) :
    (optionalPlus greedy x).WellFormed :=
  ⟨fun _ _ => Nat.zero_le _, nofun, hx⟩

/-- Both match any number of copies. -/
theorem matches_optionalPlus_iff {h : ByteArray} {i j : Nat} :
    (optionalPlus greedy x).Matches h i j ↔ (star greedy x).Matches h i j := by
  constructor
  · rintro ⟨n, ⟨-, hn⟩, hcopies⟩
    have hle : n ≤ 1 := hn 1 rfl
    match n, hle with
    | 0, _ => exact ⟨0, ⟨Nat.le_refl 0, nofun⟩, hcopies⟩
    | 1, _ =>
      obtain ⟨k, ⟨m, -, hm⟩, rfl⟩ := hcopies
      exact ⟨m, ⟨Nat.zero_le m, nofun⟩, hm⟩
  · rintro ⟨n, -, hcopies⟩
    cases n with
    | zero => exact ⟨0, ⟨Nat.le_refl 0, fun _ _ => Nat.zero_le _⟩, hcopies⟩
    | succ n =>
      refine ⟨1, ⟨Nat.zero_le 1, fun m hm => Option.some.inj hm ▸ Nat.le_refl 1⟩, j, ?_, rfl⟩
      exact ⟨n + 1, ⟨Nat.succ_pos n, nofun⟩, hcopies⟩

theorem matchesIn_optionalPlus_iff {input : Input} {i j : Nat} :
    (optionalPlus greedy x).MatchesIn input i j ↔ (star greedy x).MatchesIn input i j := by
  constructor
  · rintro ⟨hadmits, hstop, hmatch⟩
    exact ⟨hadmits, hstop, matches_optionalPlus_iff.mp hmatch⟩
  · rintro ⟨hadmits, hstop, hmatch⟩
    exact ⟨hadmits, hstop, matches_optionalPlus_iff.mpr hmatch⟩

/-- The expression `(|a)`. -/
def emptyOrA : Expr :=
  capture 1 none (alternation [empty, literal ['a'] false])

theorem wellFormed_emptyOrA : emptyOrA.WellFormed :=
  ⟨Nat.one_pos, List.cons_ne_nil _ _, trivial, trivial, trivial⟩

end Expr

namespace Search

variable {x : Expr} {longest greedy : Bool} {input : Input} {m : Slots} {c : Cache}

/-- What a search finds is a match that starts first and, if the longest match is asked for, ends
last of those from there. -/
theorem leftmost_of_search_eq_some {e : Expr} (he : e.WellFormed) (hc : c.IsReachable)
    {captures : Captures} (hfound : (search (.ofExpr longest e) input c).1 = some captures) :
    ∃ i j, captures.span = ⟨i, j⟩ ∧ e.MatchesIn input i j ∧
      (∀ i' j', e.MatchesIn input i' j' → i ≤ i') ∧
      (longest → ∀ j', e.MatchesIn input i j' → j' ≤ j) := by
  rw [search_eq_best? longest he (isMarked_of_isReachable hc), Option.map_eq_some_iff] at hfound
  obtain ⟨m, hbest, rfl⟩ := hfound
  obtain ⟨i, j, hstart, hstop, hleftmost⟩ := leftmost_of_best?_eq_some he hbest
  exact ⟨i, j, Captures.span_ofSlots hstart hstop, hleftmost⟩

/-- What `(?:x+)?` ought to find, `x*` ought to find too, unless it takes `x` over nothing and ends
there. -/
theorem best?_star_eq_some (hx : x.WellFormed)
    (hbest : best? (.ofExpr longest (.optionalPlus greedy x)) input input.start = some m)
    (hturn : greedy = false ∨ ¬ (m.start = m.stop ∧ x.Matches input.haystack m.start m.start)) :
    best? (.ofExpr longest (.star greedy x)) input input.start = some m := by
  have hp := Program.regular_ofExpr longest (Expr.wellFormed_star greedy hx)
  have hq := Program.regular_ofExpr longest (Expr.wellFormed_optionalPlus greedy hx)
  have hcode := Program.isOptionalPlus_ofExpr longest greedy x
  refine best?_eq_some_of_unrolls (Program.unrolls_optionalPlus longest greedy x) hp hq
    (Program.summarized_ofExpr _ _) (Program.summarized_ofExpr _ _) hbest ?_
  intro start path hstart hpath hwritten
  rcases hturn with rfl | hturn
  · exact hcode.nodup_of_isPreferred hstart.le_size hpath
  · by_contra hnot
    obtain ⟨hspans, hstop, -, -⟩ := hcode.of_not_nodup hstart.le_size hpath.isRun hnot
    have hends := start_stop_written_of_isRun hq hpath.isRun
    rw [hwritten, hstop] at hends
    rw [hends.1, hends.2] at hturn
    exact hturn ⟨rfl, (Expr.spans_bytewise_iff hx).mp hspans⟩

theorem best?_star_eq_none_iff (hx : x.WellFormed) :
    best? (.ofExpr longest (.star greedy x)) input input.start = none ↔
      best? (.ofExpr longest (.optionalPlus greedy x)) input input.start = none := by
  rw [best?_eq_none_iff_forall_not_matchesIn longest (Expr.wellFormed_star greedy hx),
    best?_eq_none_iff_forall_not_matchesIn longest (Expr.wellFormed_optionalPlus greedy hx)]
  simp only [Expr.matchesIn_optionalPlus_iff]

/-- The searches find the same, unless `(?:x+)?` takes `x` over nothing and ends there. -/
theorem search_star_eq (hx : x.WellFormed) {c c' : Cache} (hc : c.IsReachable)
    (hc' : c'.IsReachable)
    (hturn : ∀ m, best? (.ofExpr longest (.optionalPlus greedy x)) input input.start = some m →
      greedy = false ∨ ¬ (m.start = m.stop ∧ x.Matches input.haystack m.start m.start)) :
    (search (.ofExpr longest (.star greedy x)) input c).1 =
      (search (.ofExpr longest (.optionalPlus greedy x)) input c').1 := by
  rw [search_eq_best? longest (Expr.wellFormed_star greedy hx) (isMarked_of_isReachable hc),
    search_eq_best? longest (Expr.wellFormed_optionalPlus greedy hx) (isMarked_of_isReachable hc')]
  cases hbest : best? (.ofExpr longest (.optionalPlus greedy x)) input input.start with
  | none => rw [(best?_star_eq_none_iff hx).mpr hbest, Option.map_none, Option.map_none]
  | some m =>
    rw [best?_star_eq_some hx hbest (hturn m hbest), Option.map_some, Option.map_some]
    rfl

theorem compile_star_emptyOrA (greedy : Bool) :
    Program.compile false 100 (.star greedy .emptyOrA) =
      .ok (.ofExpr false (.star greedy .emptyOrA)) :=
  (Program.compile_eq ..).trans (if_pos (by cases greedy <;> decide))

theorem compile_optionalPlus_emptyOrA (greedy : Bool) :
    Program.compile false 100 (.optionalPlus greedy .emptyOrA) =
      .ok (.ofExpr false (.optionalPlus greedy .emptyOrA)) :=
  (Program.compile_eq ..).trans (if_pos (by cases greedy <;> decide))

/-- The programs of `x*` and of `(?:x+)?` find a match in the same inputs, and it starts at the same
position.  The longest match also ends at the same one.  The groups are the same as well, unless
the programs are greedy and `(?:x+)?` finds an empty match where `x` matches the empty text. -/
theorem star_agrees_with_optionalPlus (hx : x.WellFormed) {limit limit' : Nat} {p q : Program}
    (hp : Program.compile longest limit (.star greedy x) = .ok p)
    (hq : Program.compile longest limit' (.optionalPlus greedy x) = .ok q) (input : Input)
    {c c' : Cache} (hc : c.IsReachable) (hc' : c'.IsReachable) :
    ((search p input c).1 = none ↔ (search q input c').1 = none) ∧
    (∀ captures captures', (search p input c).1 = some captures →
      (search q input c').1 = some captures' →
        captures.span.start = captures'.span.start ∧
          (longest → captures.span = captures'.span)) ∧
    (greedy = false → (search p input c).1 = (search q input c').1) ∧
    ((∀ captures', (search q input c').1 = some captures' → captures'.span.isEmpty →
        ¬ x.Matches input.haystack captures'.span.start captures'.span.start) →
      (search p input c).1 = (search q input c').1) := by
  obtain rfl := Program.eq_ofExpr_of_compile hp
  obtain rfl := Program.eq_ofExpr_of_compile hq
  have hstar := Expr.wellFormed_star greedy hx
  have hplus := Expr.wellFormed_optionalPlus greedy hx
  have hsearch : (search (.ofExpr longest (.optionalPlus greedy x)) input c').1 = _ :=
    search_eq_best? longest hplus (isMarked_of_isReachable hc')
  refine ⟨?_, fun captures captures' hfound hfound' => ?_, fun hlazy => ?_, fun hempty => ?_⟩
  · rw [search_eq_best? longest hstar (isMarked_of_isReachable hc), hsearch,
      Option.map_eq_none_iff, Option.map_eq_none_iff, best?_star_eq_none_iff hx]
  · obtain ⟨i, j, hspan, hmatch, hfirst, hlast⟩ := leftmost_of_search_eq_some hstar hc hfound
    obtain ⟨i', j', hspan', hmatch', hfirst', hlast'⟩ :=
      leftmost_of_search_eq_some hplus hc' hfound'
    simp only [Expr.matchesIn_optionalPlus_iff] at hmatch' hfirst' hlast'
    obtain rfl : i = i' := Nat.le_antisymm (hfirst i' j' hmatch') (hfirst' i j hmatch)
    rw [hspan, hspan']
    refine ⟨rfl, fun hlongest => ?_⟩
    obtain rfl : j = j' :=
      Nat.le_antisymm (hlast' hlongest j hmatch) (hlast hlongest j' hmatch')
    rfl
  · exact search_star_eq hx hc hc' fun _ _ => Or.inl hlazy
  · refine search_star_eq hx hc hc' fun m hbest => Or.inr ?_
    rintro ⟨hstop, hmatch⟩
    obtain ⟨i, j, hi, hj, -⟩ := leftmost_of_best?_eq_some hplus hbest
    rw [Slots.start, Slots.stop, hi, hj, Option.getD_some, Option.getD_some] at hstop
    rw [Slots.start, hi, Option.getD_some] at hmatch
    rw [hbest, Option.map_some] at hsearch
    have hnone := hempty _ hsearch
    rw [Captures.span_ofSlots hi hj] at hnone
    exact hnone (beq_iff_eq.mpr hstop) hmatch

/-- Where the match has to end with the haystack, `(|a)*?` and `(?:(|a)+?)??` find the same. -/
theorem star_agrees_with_optionalPlus_emptyOrA :
    ∃ p q, Program.compile false 100 (.star false .emptyOrA) = .ok p ∧
      Program.compile false 100 (.optionalPlus false .emptyOrA) = .ok q ∧
      (search p { haystack := "aa".toUTF8, anchoredEnd := true } {}).1 =
        some ⟨#[some 0, some 2, some 1, some 2]⟩ ∧
      (search q { haystack := "aa".toUTF8, anchoredEnd := true } {}).1 =
        some ⟨#[some 0, some 2, some 1, some 2]⟩ := by
  have hfound : (search (.ofExpr false (.star false .emptyOrA))
      { haystack := "aa".toUTF8, anchoredEnd := true } {}).1 =
      some ⟨#[some 0, some 2, some 1, some 2]⟩ := by decide +kernel
  obtain ⟨-, -, hlazy, -⟩ := star_agrees_with_optionalPlus Expr.wellFormed_emptyOrA
    (compile_star_emptyOrA false) (compile_optionalPlus_emptyOrA false)
    { haystack := "aa".toUTF8, anchoredEnd := true } .empty .empty
  exact ⟨_, _, compile_star_emptyOrA false, compile_optionalPlus_emptyOrA false, hfound,
    (hlazy rfl).symm.trans hfound⟩

/-- In `aa`, `(|a)*` takes both characters, but `(?:(|a)+)?` takes `(|a)` over nothing and ends
there. -/
theorem optionalPlus_emptyOrA_stops_before_star :
    Expr.emptyOrA.WellFormed ∧ ∃ p q,
      Program.compile false 100 (.star true .emptyOrA) = .ok p ∧
      Program.compile false 100 (.optionalPlus true .emptyOrA) = .ok q ∧
      (search p { haystack := "aa".toUTF8 } {}).1 =
        some ⟨#[some 0, some 2, some 1, some 2]⟩ ∧
      (search q { haystack := "aa".toUTF8 } {}).1 =
        some ⟨#[some 0, some 0, some 0, some 0]⟩ :=
  ⟨Expr.wellFormed_emptyOrA, _, _, compile_star_emptyOrA true, compile_optionalPlus_emptyOrA true,
    by decide +kernel, by decide +kernel⟩

end Search
end LinearRegex
