import LinearRegex.Proofs.Regex.Captures
import LinearRegex.Proofs.Search.Starts

/-!
# The span of a match

A search that is not asked for groups keeps the first two slots only.  It makes the same choices as
one that keeps all of them, since none of them depends on another slot, so that it finds the same
span (`Search.map_span_search`).  In a text, spans are found between characters
(`Regex.isBetween_of_findFrom?`).
-/

namespace LinearRegex

namespace Slots

/-- The slots of the match as a whole. -/
def ofMatch (s : Slots) : Slots :=
  s.extract 0 2

theorem getElem?_ofMatch (s : Slots) (k : Nat) : s.ofMatch[k]? = if k < 2 then s[k]? else none := by
  rw [ofMatch, Array.getElem?_extract]
  by_cases hk : k < 2
  · rw [if_pos hk]
    split
    · rw [Nat.zero_add]
    · next hout => exact (getElem?_neg s k (by omega)).symm
  · rw [if_neg hk, if_neg (by omega)]

theorem offset?_ofMatch {k : Nat} (hk : k < 2) (s : Slots) : s.ofMatch.offset? k = s.offset? k := by
  rw [offset?, offset?, getElem?_ofMatch, if_pos hk]

@[simp] theorem start_ofMatch (s : Slots) : s.ofMatch.start = s.start := by
  rw [start, start, offset?_ofMatch (by decide)]

@[simp] theorem stop_ofMatch (s : Slots) : s.ofMatch.stop = s.stop := by
  rw [stop, stop, offset?_ofMatch (by decide)]

theorem size_ofMatch (s : Slots) : s.ofMatch.size = min 2 s.size := by
  rw [ofMatch, Array.size_extract, Nat.sub_zero]

theorem ofMatch_store (s : Slots) (i : Nat) (offset : Option Nat) :
    (s.store i offset).ofMatch = s.ofMatch.store i offset := by
  refine Array.ext_getElem? fun k => ?_
  rw [getElem?_ofMatch, store, store, Array.getElem?_setIfInBounds, Array.getElem?_setIfInBounds,
    getElem?_ofMatch, size_ofMatch]
  by_cases hik : i = k
  · subst hik
    rw [if_pos rfl, if_pos rfl]
    by_cases hi : i < 2
    · simp only [Nat.lt_min, hi, true_and, if_true]
    · simp only [Nat.lt_min, hi, false_and, if_false]
  · rw [if_neg hik, if_neg hik]

theorem ofMatch_blank {n : Nat} (hn : 2 ≤ n) : (blank n).ofMatch = blank 2 := by
  rw [ofMatch, blank, Array.extract_replicate, Nat.min_eq_left hn]
  rfl

end Slots

/-! ## The same paths -/

namespace Program

variable {p : Program}

theorem stored_ofMatch (c : Node) (s : Slots) :
    p.stored c s.ofMatch = (p.stored c s).ofMatch := by
  unfold stored
  split
  · next instr _ =>
    cases instr with
    | save slot next => exact (Slots.ofMatch_store s slot _).symm
    | _ => rfl
  · rfl

/-- Paths lead to the same matches if only the slots of the match are kept. -/
theorem results_ofMatch (input : Input) (c : Node) (s : Slots) :
    p.results input c s.ofMatch =
      (p.results input c s).map fun a => (a.1, a.2.ofMatch) := by
  have hnext : ∀ a : Node × Slots, (p.graph input.haystack).next (a.1, a.2.ofMatch) =
      ((p.graph input.haystack).next a).map fun b => (b.1, b.2.ofMatch) := by
    intro a
    rw [next_graph, stored_ofMatch, ← Prod.mk.eta (p := a), next_graph, List.map_map]
    rfl
  have hmap := Exploration.map_trails (G := p.graph input.haystack) (H := p.graph input.haystack)
    (f := fun a : Node × Slots => (a.1, a.2.ofMatch)) (fun _ => rfl) hnext (p.nodes input) (c, s)
  rw [results, ← hmap, List.filter_map]
  rfl

end Program

namespace Search

variable {p : Program} {input : Input}

/-! ## The same choice -/

theorem better_ofMatch (best? : Option Slots) (s : Slots) :
    Lockstep.better (best?.map Slots.ofMatch) s.ofMatch = Lockstep.better best? s := by
  cases best? with
  | none => rfl
  | some best => simp only [Lockstep.better, Option.map_some, Slots.start_ofMatch,
      Slots.stop_ofMatch]

theorem keepBetter_ofMatch (best? : Option Slots) (s : Slots) :
    keepBetter (best?.map Slots.ofMatch) s.ofMatch = (keepBetter best? s).map Slots.ofMatch := by
  rw [keepBetter, keepBetter, better_ofMatch]
  split <;> rfl

theorem outcome_ofMatch (longest : Bool) (matched? : Option Slots) (ms : List Slots) :
    outcome longest (matched?.map Slots.ofMatch) (ms.map Slots.ofMatch) =
      (outcome longest matched? ms).map Slots.ofMatch := by
  unfold outcome
  split
  · induction ms generalizing matched? with
    | nil => rfl
    | cons m ms ih => rw [List.map_cons, List.foldl_cons, List.foldl_cons, keepBetter_ofMatch, ih]
  · cases ms with
    | nil => rfl
    | cons m ms => rfl

/-- The matches from a position are the same without their groups. -/
theorem matchesAt_ofMatch (p : Program) (input : Input) (start : Nat) :
    matchesAt p { input with wantsGroups := false } start =
      (matchesAt p input start).map Slots.ofMatch := by
  have hblank : (Slots.blank (input.slotsFor p)).ofMatch = Slots.blank 2 :=
    Slots.ofMatch_blank (two_le_slotsFor p input)
  have hresults := Program.results_ofMatch (p := p) input (0, start)
    (Slots.blank (input.slotsFor p))
  rw [hblank] at hresults
  show (p.results input (0, start) (Slots.blank 2)).map (·.2) = _
  rw [hresults, matchesAt, List.map_map, List.map_map]
  rfl

theorem best?_ofMatch (p : Program) (input : Input) (pos : Nat) :
    best? p { input with wantsGroups := false } pos =
      (best? p input pos).map Slots.ofMatch := by
  have hkept : ∀ start,
      outcome p.longest none (matchesAt p { input with wantsGroups := false } start) =
        (outcome p.longest none (matchesAt p input start)).map Slots.ofMatch := by
    intro start
    rw [matchesAt_ofMatch]
    exact outcome_ofMatch p.longest none _
  rw [best?, best?, List.map_findSome?, funext hkept]
  rfl

end Search

theorem Captures.group?_zero_ofMatch (count : Nat) (s : Slots) :
    (ofSlots count s.ofMatch).group? 0 = (ofSlots count s).group? 0 := by
  rw [group?, group?, offset?_ofSlots, offset?_ofSlots, offset?_ofSlots, offset?_ofSlots,
    Slots.offset?_ofMatch (by decide), Slots.offset?_ofMatch (by decide)]

/-- The span is told by the slots of the match. -/
theorem Captures.span_ofMatch (count : Nat) (s : Slots) :
    (ofSlots count s.ofMatch).span = (ofSlots count s).span := by
  rw [span, span, group?_zero_ofMatch]

namespace Search

/-- A search finds the same span whether it is asked for groups or not, and whatever searches have
gone before. -/
theorem map_span_search (longest : Bool) {e : Expr} (he : e.WellFormed) (input : Input)
    {c c' : Cache} (hc : c.IsReachable) (hc' : c'.IsReachable) :
    (search (.ofExpr longest e) { input with wantsGroups := false } c).1.map (·.span) =
      (search (.ofExpr longest e) input c').1.map (·.span) := by
  have hspan : ∀ count, (Captures.span ∘ Captures.ofSlots count) ∘ Slots.ofMatch =
      Captures.span ∘ Captures.ofSlots count :=
    fun count => funext fun s => Captures.span_ofMatch count s
  rw [search_eq_best? longest he (isMarked_of_isReachable hc),
    search_eq_best? longest he (isMarked_of_isReachable hc'), best?_ofMatch, Option.map_map,
    Option.map_map, Option.map_map, hspan]

end Search

/-- The span lies at `start` or behind it, and both of its ends are between characters. -/
structure Span.IsBetween (s : Span) (h : ByteArray) (start : Nat) : Prop where
  start_le : start ≤ s.start
  le : s.start ≤ s.stop
  stop_le : s.stop ≤ h.size
  isBoundary_start : Utf8.isBoundary h s.start
  isBoundary_stop : Utf8.isBoundary h s.stop

theorem Span.IsBetween.mono {s : Span} {h : ByteArray} {start start' : Nat}
    (hs : s.IsBetween h start) (hle : start' ≤ start) : s.IsBetween h start' :=
  { hs with start_le := Nat.le_trans hle hs.start_le }

namespace Regex

variable {flags : Flags} {limits : Limits} {pattern text : String} {r : Regex} {start : Nat}

/-- A search that any searches have gone before finds the span that a new one does. -/
theorem map_span_search_eq_findFrom? (hbuild : build flags limits pattern = .ok r) (text : String)
    (start : Nat) {c : Cache} (hc : c.IsReachable) :
    (Search.search r.program { haystack := text.toUTF8, start } c).1.map (·.span) =
      r.findFrom? text start := by
  obtain ⟨e, -, he, hprogram⟩ := exists_program_eq_of_build hbuild
  rw [findFrom?, search, hprogram]
  exact (Search.map_span_search flags.longest he { haystack := text.toUTF8, start } .empty hc).symm

/-- The captures that a search finds can be relied on. -/
theorem captures_wellFormed (hbuild : build flags limits pattern = .ok r) {input : Input}
    {c : Cache} (hc : c.IsReachable) {captures : Captures}
    (hfound : (Search.search r.program input c).1 = some captures) :
    captures.WellFormed input := by
  obtain ⟨e, -, he, hprogram⟩ := exists_program_eq_of_build hbuild
  rw [hprogram, Search.search_eq_best? flags.longest he (Search.isMarked_of_isReachable hc),
    Option.map_eq_some_iff] at hfound
  obtain ⟨m, hm, rfl⟩ := hfound
  exact Search.wellFormed_of_best?_eq_some he hm _

/-- What a search finds has the span of the match as its group 0. -/
theorem group?_zero_of_search (hbuild : build flags limits pattern = .ok r) {input : Input}
    {c : Cache} (hc : c.IsReachable) {captures : Captures}
    (hfound : (Search.search r.program input c).1 = some captures) :
    captures.group? 0 = some captures.span :=
  (captures_wellFormed hbuild hc hfound).span

theorem isBetween_of_findFrom? (hbuild : build flags limits pattern = .ok r) {s : Span}
    (hs : r.findFrom? text start = some s) : s.IsBetween text.toUTF8 start := by
  obtain ⟨e, -, he, hsearch⟩ := exists_search_eq_of_build hbuild
  rw [findFrom?, hsearch, Option.map_map, Option.map_eq_some_iff] at hs
  obtain ⟨m, hm, rfl⟩ := hs
  have hwell := Search.wellFormed_of_best?_eq_some he hm
    (Program.ofExpr flags.longest e).slotCount
  obtain ⟨hbefore, hwithin, -⟩ := hwell.within 0 _ hwell.span
  obtain ⟨-, hstop⟩ := Captures.group?_eq_some_iff.mp hwell.span
  exact ⟨hwell.start_le, hwithin, hwell.stop_le, hwell.isBoundary_start,
    (hwell.isBoundary text.isValidUTF8 1 _ hstop).2⟩

/-- What a search finds does not depend on the searches that have gone before. -/
theorem fst_search_eq (hbuild : build flags limits pattern = .ok r) (input : Input) {c : Cache}
    (hc : c.IsReachable) : (Search.search r.program input c).1 = r.search input := by
  obtain ⟨e, -, he, hprogram⟩ := exists_program_eq_of_build hbuild
  rw [search, hprogram, Search.search_eq_best? flags.longest he (Search.isMarked_of_isReachable hc),
    Search.search_eq_best? flags.longest he (Search.isMarked_of_isReachable .empty)]

/-- From offsets with the same starts behind them, the same is found. -/
theorem findFrom?_congr_start (hbuild : build flags limits pattern = .ok r) {start' : Nat}
    (hsame : Utf8.SameBoundaries text.toUTF8 start start') :
    r.findFrom? text start = r.findFrom? text start' := by
  obtain ⟨e, -, he, hsearch⟩ := exists_search_eq_of_build hbuild
  have hbest := Search.best?_congr_start (Program.summarized_ofExpr flags.longest e)
    { haystack := text.toUTF8, wantsGroups := false } rfl hsame
  rw [findFrom?, findFrom?, hsearch, hsearch]
  exact congrArg (fun m? : Option Slots =>
    (m?.map (Captures.ofSlots (Program.ofExpr flags.longest e).slotCount)).map (·.span)) hbest

/-- Behind the end there is nothing to find. -/
theorem findFrom?_of_size_lt (r : Regex) (h : text.utf8ByteSize < start) :
    r.findFrom? text start = none := by
  have hlt : text.toUTF8.size < start := h
  rw [findFrom?, search, Search.search, Search.engine?, if_pos hlt]
  rfl

end Regex
end LinearRegex
