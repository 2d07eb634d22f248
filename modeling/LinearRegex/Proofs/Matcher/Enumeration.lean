import LinearRegex.Proofs.Matcher.Succession

/-!
# All matches of a text

A matcher that is asked for one match after the other comes to an end: it finds some matches, and
then none (`Matcher.Enumerates`).  The matches are those of `Regex.spans`
(`Regex.enumerates_spans`) and no others (`Matcher.Enumerates.unique`), and they are the first ones
of the succession that begins at the cursor (`Matcher.IsFor.successive_of_enumerates`).
-/

namespace LinearRegex

namespace Matcher

/-- Asked for matches until there is none, the matcher finds those with the given spans. -/
inductive Enumerates : Matcher → List Span → Prop
  | done {m : Matcher} (hfind : m.find.1 = none) : Enumerates m []
  | found {m : Matcher} {s : Span} {ss : List Span} (hfind : m.find.1 = some s)
      (hrest : Enumerates m.find.2 ss) : Enumerates m (s :: ss)

theorem Enumerates.unique {m : Matcher} {ss ss' : List Span} (h : m.Enumerates ss)
    (h' : m.Enumerates ss') : ss = ss' := by
  induction h generalizing ss' with
  | done hfind =>
    cases h' with
    | done => rfl
    | found hfind' => cases hfind.symm.trans hfind'
  | found hfind _ ih =>
    cases h' with
    | done hfind' => cases hfind.symm.trans hfind'
    | found hfind' hrest' =>
      obtain rfl := Option.some.inj (hfind.symm.trans hfind')
      rw [ih hrest']

variable {flags : Flags} {limits : Regex.Limits} {pattern text : String} {r : Regex} {m : Matcher}
  {s : Span} {ss : List Span}

theorem take_succ_of_none (hfind : m.find.1 = none) (n : Nat) : m.take (n + 1) = [] := by
  rw [take]
  split
  · next heq => cases hfind.symm.trans (congrArg Prod.fst heq)
  · rfl

/-- A match that is found is the next one to be taken. -/
theorem map_span_take_succ (hfind : m.find.1 = some s) (n : Nat) :
    (m.take (n + 1)).map (·.span) = s :: (m.find.2.take n).map (·.span) := by
  have hkept : m.find.2.captures?.map (·.span) = some s := by
    unfold find at hfind ⊢
    split at hfind
    · cases hfind
    · exact hfind
  obtain ⟨captures, hcaptures, hspan⟩ := Option.map_eq_some_iff.mp hkept
  have htake : m.take (n + 1) = captures :: m.find.2.take n := by
    rw [take]
    split
    · next m' heq =>
      obtain rfl : m.find.2 = m' := congrArg Prod.snd heq
      rw [hcaptures]
      rfl
    · next heq => cases hfind.symm.trans (congrArg Prod.fst heq)
  rw [htake, List.map_cons, hspan]

/-- With as many searches as there are starts left, all matches are found. -/
theorem IsFor.enumerates_take (h : m.IsFor r text)
    (hbuild : Regex.build flags limits pattern = .ok r) {n : Nat}
    (hn : startsLeft text.toUTF8 m.cursor? ≤ n) :
    m.Enumerates ((m.take n).map (·.span)) := by
  have hfinds := h.fst_find hbuild
  induction n generalizing m with
  | zero =>
    refine .done (Option.eq_none_iff_forall_ne_some.mpr fun s hfind => ?_)
    have hlt := Regex.startsLeft_cursorAfter?_lt hbuild (hfinds.symm.trans hfind)
    exact absurd (Nat.lt_of_lt_of_le hlt hn) (Nat.not_lt_zero _)
  | succ n ih =>
    cases hfind : m.find.1 with
    | none =>
      rw [take_succ_of_none hfind]
      exact .done hfind
    | some s =>
      rw [map_span_take_succ hfind]
      refine .found hfind (ih h.find ?_ (h.find.fst_find hbuild))
      have hlt := Regex.startsLeft_cursorAfter?_lt hbuild (hfinds.symm.trans hfind)
      rw [cursor?_find, h.haystack, hfind]
      exact Nat.le_of_lt_succ (Nat.lt_of_lt_of_le hlt hn)

/-- The matches are the first ones of the succession from the cursor, and none follows them. -/
theorem IsFor.successive_of_enumerates (h : m.IsFor r text)
    (hbuild : Regex.build flags limits pattern = .ok r) (hss : m.Enumerates ss) :
    r.successive text m.cursor? (ss.length + 1) = ss.map some ++ [none] := by
  induction hss with
  | done hfind =>
    rw [List.length_nil, Regex.successive, ← h.fst_find hbuild, hfind]
    rfl
  | @found m s ss hfind _ ih =>
    rw [List.length_cons, Regex.successive, ← h.fst_find hbuild, hfind, ← h.haystack, ← hfind,
      ← cursor?_find, ih h.find, hfind]
    rfl

/-- Every match lies behind the cursor. -/
theorem IsFor.isBetween_of_enumerates (h : m.IsFor r text)
    (hbuild : Regex.build flags limits pattern = .ok r) (hss : m.Enumerates ss) (hs : s ∈ ss) :
    ∃ cursor, m.cursor? = some cursor ∧ s.IsBetween text.toUTF8 cursor := by
  refine Regex.isBetween_of_mem_successive hbuild (n := ss.length + 1) ?_
  rw [h.successive_of_enumerates hbuild hss]
  exact List.mem_append_left _ (List.mem_map_of_mem hs)

/-- Every match lies behind those before it, and does not touch an empty one. -/
theorem IsFor.pairwise_of_enumerates (h : m.IsFor r text)
    (hbuild : Regex.build flags limits pattern = .ok r) (hss : m.Enumerates ss) :
    ss.Pairwise fun s t => s.stop ≤ t.start ∧ (s.isEmpty → s.stop < t.start) := by
  have hpairwise := Regex.pairwise_successive hbuild text m.cursor? (ss.length + 1)
  rw [h.successive_of_enumerates hbuild hss, List.pairwise_append, List.pairwise_map] at hpairwise
  exact hpairwise.1.imp fun hlies => hlies _ rfl _ rfl

end Matcher

/-- The matches of a text are those that a matcher finds until there is none. -/
theorem Regex.enumerates_spans {flags : Flags} {limits : Limits} {pattern : String} {r : Regex}
    (hbuild : build flags limits pattern = .ok r) (text : String) :
    (r.matcher text).Enumerates (r.spans text) := by
  refine (Matcher.isFor_matcher r text).enumerates_take hbuild ?_
  -- The positions from the start on are those of the bytes, and the end.
  have hcard : (Utf8.boundariesFrom text.toUTF8 0).card ≤ (Finset.Icc 0 text.toUTF8.size).card :=
    Finset.card_filter_le _ _
  rw [Nat.card_Icc] at hcard
  exact hcard

end LinearRegex
