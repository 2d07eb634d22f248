import LinearRegex.Command.Output
import LinearRegex.Proofs.Matcher.Enumeration
import LinearRegex.Proofs.Search.Starts

/-!
# The matches that a command goes through

A command that searches a haystack begins at an offset, and behind each match at another one, until
it has passed the end or finds nothing (`Command.Visits`).  The offsets advance, whatever bytes the
haystack holds, so the command comes to an end.  A matcher goes through a text in another way: it
passes over a whole character behind an empty match, where the command passes over a byte.  Both
find the same matches, since none begins inside a character (`Command.spans_agree`).
-/

namespace LinearRegex

namespace Command

/-- Where the search goes on behind a match. -/
def resume (s : Span) : Nat :=
  if s.isEmpty then s.stop + 1 else s.stop

/-- Begun at `start` with the cache `c`, the command visits the matches with the given spans. -/
inductive Visits (r : Regex) (h : ByteArray) : (start : Nat) → (c : Cache) → List Span → Prop
  /-- The end has been passed. -/
  | past {start : Nat} {c : Cache} (hlt : h.size < start) : Visits r h start c []
  | nothing {start : Nat} {c : Cache} (hle : start ≤ h.size)
      (hnone : (Search.search r.program { haystack := h, start, wantsGroups := false } c).1 =
        none) :
      Visits r h start c []
  | found {start : Nat} {c : Cache} {captures : Captures} {ss : List Span} (hle : start ≤ h.size)
      (hsome : (Search.search r.program { haystack := h, start, wantsGroups := false } c).1 =
        some captures)
      (hrest : Visits r h (resume captures.span)
        (Search.search r.program { haystack := h, start, wantsGroups := false } c).2 ss) :
      Visits r h start c (captures.span :: ss)

variable {flags : Flags} {limits : Regex.Limits} {pattern text : String} {r : Regex} {h : ByteArray}
  {start : Nat} {c : Cache} {ss ss' : List Span}

theorem Visits.unique (hss : Visits r h start c ss) (hss' : Visits r h start c ss') : ss = ss' := by
  induction hss generalizing ss' with
  | past hlt =>
    cases hss' with
    | past => rfl
    | nothing => rfl
    | found hle => exact absurd hle (Nat.not_le.mpr hlt)
  | nothing hle hnone =>
    cases hss' with
    | past => rfl
    | nothing => rfl
    | found _ hsome => cases hnone.symm.trans hsome
  | found hle hsome _ ih =>
    cases hss' with
    | past hlt => exact absurd hle (Nat.not_le.mpr hlt)
    | nothing _ hnone => cases hnone.symm.trans hsome
    | found _ hsome' hrest' =>
      obtain rfl := Option.some.inj (hsome.symm.trans hsome')
      rw [ih hrest']

theorem resume_of_not_isEmpty {s : Span} (hs : s.isEmpty = false) : resume s = s.stop := by
  rw [resume, hs]
  rfl

theorem resume_of_isEmpty {s : Span} (hs : s.isEmpty) : resume s = s.stop + 1 := by
  rw [resume, if_pos hs]

/-- The search goes on behind the offset where it has begun, and at most one byte past the end. -/
theorem resume_bounds (hbuild : Regex.build flags limits pattern = .ok r) (hc : c.IsReachable)
    {captures : Captures}
    (hsome : (Search.search r.program { haystack := h, start, wantsGroups := false } c).1 =
      some captures) :
    start < resume captures.span ∧ resume captures.span ≤ h.size + 1 := by
  have hwell := Regex.captures_wellFormed hbuild hc hsome
  have hstart : start ≤ captures.span.start := hwell.start_le
  have hstop : captures.span.stop ≤ h.size := hwell.stop_le
  obtain ⟨-, hle, -⟩ := hwell.within 0 _ hwell.span
  cases hs : captures.span.isEmpty with
  | true =>
    rw [resume_of_isEmpty hs]
    omega
  | false =>
    rw [resume_of_not_isEmpty hs]
    have hne : captures.span.start ≠ captures.span.stop := beq_eq_false_iff_ne.mp hs
    omega

/-- The offsets at which the search goes on advance, so there is room for one match at every byte
and for one at the end. -/
theorem Visits.advances (hbuild : Regex.build flags limits pattern = .ok r) (hc : c.IsReachable)
    (hss : Visits r h start c ss) :
    (start :: ss.map resume).IsChain (· < ·) ∧
      (start ≤ h.size + 1 → ss.length + start ≤ h.size + 1) := by
  induction hss with
  | past | nothing => exact ⟨.singleton _, fun hle => by simpa using hle⟩
  | found hle hsome _ ih =>
    obtain ⟨hlt, hbound⟩ := resume_bounds hbuild hc hsome
    obtain ⟨hchain, hlength⟩ := ih (.search r.program _ hc)
    refine ⟨.cons_cons hlt hchain, fun _ => ?_⟩
    have := hlength hbound
    rw [List.length_cons]
    omega

/-- With fuel for every offset that is left, the command goes on to the end. -/
theorem visits_spansFrom (hbuild : Regex.build flags limits pattern = .ok r) {fuel : Nat}
    (hfuel : h.size < fuel + start) (hc : c.IsReachable) :
    Visits r h start c (spansFrom r h fuel start c) := by
  induction fuel generalizing start c with
  | zero => exact .past (Nat.zero_add start ▸ hfuel)
  | succ fuel ih =>
    rw [spansFrom]
    split
    · next hnone =>
      rcases Nat.lt_or_ge h.size start with hlt | hle
      · exact .past hlt
      · exact .nothing hle (congrArg Prod.fst hnone)
    · next captures c' hsome =>
      obtain rfl := congrArg Prod.snd hsome
      have hfound := congrArg Prod.fst hsome
      obtain ⟨hlt, hbound⟩ := resume_bounds hbuild hc hfound
      exact .found (by omega) hfound (ih (by omega) (.search r.program _ hc))

/-! ## In a text -/

/-- A search from `start` has the same starts before it as one from the cursor of a matcher. -/
structure InStep (text : String) (start : Nat) (cursor? : Option Nat) : Prop where
  some : ∀ cursor, cursor? = some cursor → Utf8.SameBoundaries text.toUTF8 start cursor
  none : cursor? = none → text.toUTF8.size < start

/-- Behind a match, no character begins between where the command and where a matcher goes on. -/
theorem inStep_resume {s : Span} (hs : s.IsBetween text.toUTF8 start) :
    InStep text (resume s) (Matcher.cursorAfter? text.toUTF8 (some s)) := by
  cases hempty : s.isEmpty with
  | false =>
    rw [Matcher.cursorAfter?_of_not_isEmpty hempty, resume_of_not_isEmpty hempty]
    exact ⟨fun cursor hcursor => Option.some.inj hcursor ▸ fun _ _ _ => Iff.rfl, nofun⟩
  | true =>
    rw [Matcher.cursorAfter?_of_isEmpty hempty, resume_of_isEmpty hempty]
    rcases Nat.eq_or_lt_of_le hs.stop_le with hend | hlt
    · rw [hend, Utf8.decodeAt?_size]
      exact ⟨nofun, fun _ => Nat.lt_succ_self _⟩
    · obtain ⟨char, hchar⟩ := Utf8.exists_decodeAt?_of_isBoundary (h := text.toUTF8)
        text.isValidUTF8 hlt hs.isBoundary_stop
      rw [hchar]
      refine ⟨fun cursor hcursor pos _ hboundary => ?_, nofun⟩
      obtain rfl : s.stop + char.utf8Size = cursor := Option.some.inj hcursor
      have hpos := char.utf8Size_pos
      refine ⟨fun hle => Nat.le_of_not_lt fun hinside => ?_, fun hle => by omega⟩
      rw [Utf8.isBoundary_eq_false_of_decodeAt? hchar hle hinside] at hboundary
      cases hboundary

/-- In step with a matcher, a search finds what the matcher does. -/
theorem InStep.map_span_search {m : Matcher} (hstep : InStep text start m.cursor?)
    (hbuild : Regex.build flags limits pattern = .ok r) (hm : m.IsFor r text)
    (hc : c.IsReachable) :
    (Search.search r.program { haystack := text.toUTF8, start, wantsGroups := false } c).1.map
      (·.span) = m.find.1 := by
  rw [Regex.fst_search_eq hbuild _ hc, hm.fst_find hbuild]
  cases hcursor : m.cursor? with
  | none => exact Regex.findFrom?_of_size_lt r (hstep.none hcursor)
  | some cursor => exact Regex.findFrom?_congr_start hbuild (hstep.some cursor hcursor)

/-- In step with a matcher, the command visits the matches that the matcher finds. -/
theorem InStep.visits {m : Matcher} (hstep : InStep text start m.cursor?)
    (hbuild : Regex.build flags limits pattern = .ok r) (hm : m.IsFor r text)
    (hss : m.Enumerates ss) (hc : c.IsReachable) : Visits r text.toUTF8 start c ss := by
  induction hss generalizing start c with
  | @done m hfind =>
    have hnone := hstep.map_span_search hbuild hm hc
    rw [hfind, Option.map_eq_none_iff] at hnone
    rcases Nat.lt_or_ge text.toUTF8.size start with hlt | hle
    · exact .past hlt
    · exact .nothing hle hnone
  | @found m s ss hfind _ ih =>
    have hsome := hstep.map_span_search hbuild hm hc
    rw [hfind, Option.map_eq_some_iff] at hsome
    obtain ⟨captures, hsome, rfl⟩ := hsome
    obtain ⟨hlt, hbound⟩ := resume_bounds hbuild hc hsome
    obtain ⟨_, _, hbetween⟩ := hm.isBetween_of_enumerates hbuild (.found hfind ‹_›)
      List.mem_cons_self
    have hnext := inStep_resume hbetween
    rw [← hfind, ← hm.haystack, ← Matcher.cursor?_find] at hnext
    exact .found (by omega) hsome (ih hnext hm.find (.search r.program _ hc))

/-- In a text, the command visits the matches that a matcher finds; in any bytes, it comes to an end
after at most one match for every byte and one more, and advances from each to the next. -/
theorem spans_agree (hbuild : Regex.build flags limits pattern = .ok r) :
    (∀ text ss, (r.matcher text).Enumerates ss ↔ ss = spans r text.toUTF8) ∧
      ∀ h, (∀ ss, Visits r h 0 {} ss ↔ ss = spans r h) ∧ (spans r h).length ≤ h.size + 1 ∧
        (0 :: (spans r h).map resume).IsChain (· < ·) := by
  have hvisits : ∀ h, Visits r h 0 {} (spans r h) := fun h =>
    visits_spansFrom hbuild (Nat.lt_succ_self h.size) .empty
  refine ⟨fun text ss => ?_, fun h => ?_⟩
  · have hstep : InStep text 0 (r.matcher text).cursor? :=
      ⟨fun cursor hcursor => Option.some.inj hcursor ▸ fun _ _ _ => Iff.rfl, nofun⟩
    have hspans := Regex.enumerates_spans hbuild text
    have heq : r.spans text = spans r text.toUTF8 :=
      (hstep.visits hbuild (Matcher.isFor_matcher r text) hspans .empty).unique
        (hvisits text.toUTF8)
    rw [← heq]
    exact ⟨fun hss => hss.unique hspans, fun hss => hss ▸ hspans⟩
  · obtain ⟨hchain, hlength⟩ := (hvisits h).advances hbuild .empty
    exact ⟨fun ss => ⟨fun hss => hss.unique (hvisits h), fun hss => hss ▸ hvisits h⟩,
      hlength (Nat.zero_le _), hchain⟩

/-- The empty pattern matches around both characters of `aé`, though the command searches inside the
second one too, and in bytes that are no text it does not match in front of the first. -/
theorem spans_agree_empty :
    ∃ r, Regex.build {} {} "" = .ok r ∧
      (r.matcher "aé").Enumerates [⟨0, 0⟩, ⟨1, 1⟩, ⟨3, 3⟩] ∧
      Visits r "aé".toUTF8 0 {} [⟨0, 0⟩, ⟨1, 1⟩, ⟨3, 3⟩] ∧
      Visits r ⟨#[0x80, 0x61]⟩ 0 {} [⟨1, 1⟩, ⟨2, 2⟩] := by
  have htext : [⟨0, 0⟩, ⟨1, 1⟩, ⟨3, 3⟩] = spans ⟨"", {}, .ofExpr false .empty⟩ "aé".toUTF8 := by
    decide +kernel
  have hbytes : [⟨1, 1⟩, ⟨2, 2⟩] = spans ⟨"", {}, .ofExpr false .empty⟩ ⟨#[0x80, 0x61]⟩ := by
    decide +kernel
  obtain ⟨hmatcher, hcommand⟩ := spans_agree Regex.build_empty
  exact ⟨_, Regex.build_empty, (hmatcher _ _).mpr htext, ((hcommand _).1 _).mpr htext,
    ((hcommand _).1 _).mpr hbytes⟩

end Command

end LinearRegex
