import LinearRegex.Proofs.Program.Groups
import LinearRegex.Proofs.Regex.Leftmost

/-!
# Captures that can be relied on

Callers cut the haystack at the offsets of a match and of its groups without looking at them.  They
may: the slots of a group are set together, a group lies within the match and the match within the
haystack, and no offset cuts a character (`Captures.WellFormed`).  This holds of what every search
finds, whichever engine it is made by and whatever the haystack holds (`wellFormed_of_search`).
-/

namespace LinearRegex

/-- What callers may rely on in the captures of a match. -/
structure Captures.WellFormed (c : Captures) (input : Input) : Prop where
  /-- Group 0 is set. -/
  span : c.group? 0 = some c.span
  start_le : input.start ≤ c.span.start
  stop_le : c.span.stop ≤ input.haystack.size
  /-- A match starts on no byte that continues a character. -/
  isBoundary_start : Utf8.isBoundary input.haystack c.span.start
  /-- Both slots of a group are set, or neither is. -/
  paired : ∀ g, (c.slots.offset? (2 * g)).isSome = (c.slots.offset? (2 * g + 1)).isSome
  /-- A group lies within the match. -/
  within : ∀ g s, c.group? g = some s →
    c.span.start ≤ s.start ∧ s.start ≤ s.stop ∧ s.stop ≤ c.span.stop
  /-- A group is valid UTF-8, even if the haystack is not. -/
  isValidUTF8 : ∀ g s, c.group? g = some s →
    (input.haystack.extract s.start s.stop).IsValidUTF8
  /-- In valid UTF-8, no slot holds an offset inside a character. -/
  isBoundary : input.haystack.IsValidUTF8 → ∀ i offset, c.slots.offset? i = some offset →
    offset ≤ input.haystack.size ∧ Utf8.isBoundary input.haystack offset

namespace Search

variable {e : Expr} {input : Input} {longest : Bool} {start : Nat} {m : Slots}

/-- A group of a match holds nothing or lies within the match. -/
theorem holdsBetween_of_mem_matchesAt (he : e.WellFormed)
    (hm : m ∈ matchesAt (.ofExpr longest e) input start) (g : Nat) :
    (m.offset? (2 * g) = none ∧ m.offset? (2 * g + 1) = none) ∨
      m.HoldsBetween input.haystack g start m.stop := by
  have hsize := size_of_mem_matchesAt hm
  obtain ⟨⟨⟨k, j⟩, s⟩, ha, rfl⟩ := List.mem_map.mp hm
  have hp := Program.regular_ofExpr longest he
  have hbegun :=
    (IsBegun.blank hp (two_le_slotsFor (.ofExpr longest e) input) start).of_mem_results hp ha
  have hstop : s.stop = j :=
    hbegun.stop_eq (Program.instr_of_accepts (Program.accepts_of_mem_results ha))
  have hadvances := Program.advances_of_mem_results longest he
    (a := (start, Slots.blank (input.slotsFor (.ofExpr longest e)))) ha
  rw [hstop]
  by_cases hg : 2 * g + 1 < input.slotsFor (.ofExpr longest e)
  · rcases hadvances.group g (by rwa [Slots.size_blank]) with ⟨hstart, hend⟩ | hbetween
    · exact Or.inl ⟨hstart.trans (Slots.offset?_blank _ _), hend.trans (Slots.offset?_blank _ _)⟩
    · exact Or.inr hbetween
  · obtain ⟨count, hcount⟩ := two_dvd_slotsFor (.ofExpr longest e) input
    have hslots : s.size = input.slotsFor (.ofExpr longest e) := hsize
    have hout : s.size ≤ 2 * g := by omega
    exact Or.inl ⟨Slots.offset?_of_size_le hout, Slots.offset?_of_size_le (Nat.le_succ_of_le hout)⟩

/-- There is text from the start of a match to every offset that it holds. -/
theorem isText_of_offset? (he : e.WellFormed) (hm : m ∈ matchesAt (.ofExpr longest e) input start)
    {k offset : Nat} (hoffset : m.offset? k = some offset) :
    Utf8.IsText input.haystack start offset := by
  obtain ⟨g, rfl | rfl⟩ := Nat.even_or_odd' k
  · rcases holdsBetween_of_mem_matchesAt he hm g with ⟨hnone, -⟩ | ⟨i, j, hi, -, htext, -, -⟩
    · cases hnone.symm.trans hoffset
    · exact Option.some.inj (hi.symm.trans hoffset) ▸ htext
  · rcases holdsBetween_of_mem_matchesAt he hm g with ⟨-, hnone⟩ | ⟨i, j, -, hj, htext, htext', -⟩
    · cases hnone.symm.trans hoffset
    · exact Option.some.inj (hj.symm.trans hoffset) ▸ htext.trans htext'

/-- There is text before a group of a match, in it and behind it. -/
theorem isText_of_group? (he : e.WellFormed) (hm : m ∈ matchesAt (.ofExpr longest e) input start)
    {count g : Nat} {s : Span} (hs : (Captures.ofSlots count m).group? g = some s) :
    Utf8.IsText input.haystack start s.start ∧ Utf8.IsText input.haystack s.start s.stop ∧
      Utf8.IsText input.haystack s.stop m.stop := by
  rw [Captures.group?_eq_some_iff, Captures.offset?_ofSlots, Captures.offset?_ofSlots] at hs
  obtain ⟨hstart, hstop⟩ := hs
  rcases holdsBetween_of_mem_matchesAt he hm g with ⟨hnone, -⟩ | ⟨i, j, hi, hj, htexts⟩
  · cases hnone.symm.trans hstart
  · obtain rfl := Option.some.inj (hstart.symm.trans hi)
    obtain rfl := Option.some.inj (hstop.symm.trans hj)
    exact htexts

/-- The captures of a match that a search ought to find are well formed. -/
theorem wellFormed_of_best?_eq_some (he : e.WellFormed)
    (hbest : best? (.ofExpr longest e) input input.start = some m) (count : Nat) :
    (Captures.ofSlots count m).WellFormed input := by
  have hp := Program.regular_ofExpr longest he
  have hs := Program.summarized_ofExpr longest e
  obtain ⟨start, hstart, hkept, -⟩ := (best?_start_eq_some_iff hs).mp hbest
  have hm := mem_of_outcome_eq_some hkept
  obtain ⟨hzero, hone⟩ := offsets_of_mem_matchesAt hp hm
  have hgroup : (Captures.ofSlots count m).group? 0 = some ⟨start, m.stop⟩ :=
    Captures.group?_zero_ofSlots hzero hone
  have hspan : (Captures.ofSlots count m).span = ⟨start, m.stop⟩ :=
    Captures.span_ofSlots hzero hone
  obtain ⟨-, htext, -⟩ := isText_of_group? he hm hgroup
  constructor
  case span => rw [hspan, hgroup]
  case start_le =>
    rw [hspan]
    exact hstart.le
  case stop_le =>
    rw [hspan]
    exact htext.le_size hstart.le_size
  case isBoundary_start =>
    rw [hspan]
    exact hstart.isBoundary
  case paired =>
    intro g
    rw [Captures.offset?_ofSlots, Captures.offset?_ofSlots]
    rcases holdsBetween_of_mem_matchesAt he hm g with ⟨hi, hj⟩ | ⟨i, j, hi, hj, -⟩
    · rw [hi, hj]
    · rw [hi, hj, Option.isSome_some, Option.isSome_some]
  case within =>
    intro g s hs
    obtain ⟨hbefore, hwithin, hbehind⟩ := isText_of_group? he hm hs
    rw [hspan]
    exact ⟨hbefore.le, hwithin.le, hbehind.le⟩
  case isValidUTF8 =>
    intro g s hs
    obtain ⟨-, hwithin, -⟩ := isText_of_group? he hm hs
    exact hwithin.isValidUTF8_extract
  case isBoundary =>
    intro hvalid k offset hoffset
    rw [Captures.offset?_ofSlots] at hoffset
    have htext' := isText_of_offset? he hm hoffset
    exact ⟨htext'.le_size hstart.le_size,
      htext'.isBoundary hvalid hstart.le_size hstart.isBoundary⟩

end Search

namespace Regex

/-- Whatever searches have gone before, the captures that a search finds are well formed, and so are
those that it would find with any of the engines. -/
theorem wellFormed_of_search {flags : Flags} {limits : Limits} {pattern : String} {r : Regex}
    (hbuild : build flags limits pattern = .ok r) (input : Input) {c : Cache}
    (hc : c.IsReachable) {captures : Captures}
    (hfound : (Search.search r.program input c).1 = some captures ∨
      ∃ engine, (Search.withEngine engine r.program input c).1 = some captures) :
    captures.WellFormed input := by
  obtain ⟨e, -, he, hprogram⟩ := exists_program_eq_of_build hbuild
  have hmarked := Search.isMarked_of_isReachable hc
  have hbest : (Search.best? (.ofExpr flags.longest e) input input.start).map
      (Captures.ofSlots (Program.ofExpr flags.longest e).slotCount) = some captures := by
    rw [hprogram] at hfound
    rcases hfound with hfound | ⟨engine, hfound⟩
    · rw [← hfound, Search.search_eq_best? flags.longest he hmarked]
    · rw [← hfound, Search.withEngine_eq_best? flags.longest he engine hmarked]
  obtain ⟨m, hm, rfl⟩ := Option.map_eq_some_iff.mp hbest
  exact Search.wellFormed_of_best?_eq_some he hm _

/-- In bytes that are no text, `(a|b)*` finds `ab` behind them, with `b` as its group. -/
theorem wellFormed_of_backtrack_repeatedGroup :
    ∃ r, build {} {} "(a|b)*" = .ok r ∧ ∃ captures,
      (Search.withEngine .backtrack r.program
        { haystack := ⟨#[0xFF, 0x61, 0x62]⟩, start := 1 } {}).1 = some captures ∧
      captures.group? 1 = some ⟨2, 3⟩ ∧
      captures.WellFormed { haystack := ⟨#[0xFF, 0x61, 0x62]⟩, start := 1 } := by
  have hfound : (Search.withEngine .backtrack (.ofExpr false .repeatedGroup)
      { haystack := ⟨#[0xFF, 0x61, 0x62]⟩, start := 1 } {}).1 =
      some ⟨#[some 1, some 3, some 2, some 3]⟩ := by decide +kernel
  exact ⟨_, build_repeatedGroup false, _, hfound, rfl,
    wellFormed_of_search (build_repeatedGroup false) _ .empty (Or.inr ⟨.backtrack, hfound⟩)⟩

end Regex
end LinearRegex
