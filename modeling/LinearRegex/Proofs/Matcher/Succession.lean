import LinearRegex.Proofs.Matcher.Calls
import LinearRegex.Proofs.Regex.Span
import LinearRegex.Proofs.Text.Boundaries

/-!
# The matches that follow one another

From one reset of a matcher to the next, what `find` finds is told by the regular expression, the
text and the position where it begins: each match is looked for at the end of the one before, or at
the next character if that one is empty (`Regex.successive`).  Other calls in between do not show
(`Matcher.findings_eq_successive`).
-/

namespace LinearRegex

namespace Regex

/-- What `n` searches find, each from where the one before it says. -/
def successive (r : Regex) (text : String) (cursor? : Option Nat) : Nat → List (Option Span)
  | 0 => []
  | n + 1 =>
    let span? := cursor?.bind (r.findFrom? text)
    span? :: r.successive text (Matcher.cursorAfter? text.toUTF8 span?) n

/-- What is found in a text from `cursor` on, one match after the other. -/
structure IsSuccession (r : Regex) (text : String) (cursor : Nat) (found : List (Option Span)) :
    Prop where
  /-- The first is found at the cursor. -/
  first : ∀ span? ∈ found.head?, span? = r.findFrom? text cursor
  /-- Behind a match that is not empty, the next one is found at its end. -/
  behind : found.IsChain fun prev? next? => ∀ s ∈ prev?, s.isEmpty = false →
    next? = r.findFrom? text s.stop
  /-- Behind an empty match the next one is found at the next character, if there is one. -/
  behindEmpty : found.IsChain fun prev? next? => ∀ s ∈ prev?, s.isEmpty →
    (s.stop = text.utf8ByteSize ∧ next? = none) ∨
      ∃ c, Utf8.decodeAt? text.toUTF8 s.stop = some c ∧
        next? = r.findFrom? text (s.stop + c.utf8Size)
  /-- A match lies behind all those before it, and does not touch an empty one. -/
  ordered : found.Pairwise fun prev? next? => ∀ s ∈ prev?, ∀ t ∈ next?,
    s.stop ≤ t.start ∧ (s.isEmpty → s.stop < t.start)
  /-- No match is found twice. -/
  nodup : found.reduceOption.Nodup
  /-- Where nothing is found, nothing is found any more. -/
  exhausted : found.Pairwise fun prev? next? => prev? = none → next? = none
  /-- From the start of the text, there is a match for every character at most, and one at the
  end. -/
  count_le : cursor = 0 → found.countP (·.isSome) ≤ text.length + 1

end Regex

/-! ## The cursor behind a match -/

namespace Matcher

variable {h : ByteArray} {s : Span} {cursor : Nat}

theorem cursorAfter?_of_not_isEmpty (hs : s.isEmpty = false) :
    cursorAfter? h (some s) = some s.stop := by
  rw [cursorAfter?, hs]
  rfl

theorem cursorAfter?_of_isEmpty (hs : s.isEmpty) :
    cursorAfter? h (some s) = (Utf8.decodeAt? h s.stop).map (s.stop + ·.utf8Size) := by
  rw [cursorAfter?, if_pos hs]

/-- The cursor moves to the end of a match, and past it if the match is empty. -/
theorem stop_le_of_cursorAfter? (hcursor : cursorAfter? h (some s) = some cursor) :
    s.stop ≤ cursor ∧ (s.isEmpty → s.stop < cursor) := by
  cases hs : s.isEmpty with
  | false =>
    rw [cursorAfter?_of_not_isEmpty hs, Option.some.injEq] at hcursor
    exact ⟨Nat.le_of_eq hcursor, nofun⟩
  | true =>
    rw [cursorAfter?_of_isEmpty hs, Option.map_eq_some_iff] at hcursor
    obtain ⟨c, -, rfl⟩ := hcursor
    exact ⟨Nat.le_add_right _ _, fun _ => Nat.lt_add_of_pos_right c.utf8Size_pos⟩

/-- The cursor moves past the start of a match. -/
theorem start_lt_of_cursorAfter? (hle : s.start ≤ s.stop)
    (hcursor : cursorAfter? h (some s) = some cursor) : s.start < cursor := by
  obtain ⟨hstop, hempty⟩ := stop_le_of_cursorAfter? hcursor
  rcases Nat.eq_or_lt_of_le hle with heq | hlt
  · exact Nat.lt_of_le_of_lt hle (hempty (beq_iff_eq.mpr heq))
  · exact Nat.lt_of_lt_of_le hlt hstop

/-- The number of positions, from the cursor on, where a match may start. -/
def startsLeft (h : ByteArray) (cursor? : Option Nat) : Nat :=
  cursor?.elim 0 fun cursor => (Utf8.boundariesFrom h cursor).card

end Matcher

/-! ## Successive searches -/

namespace Regex

variable {flags : Flags} {limits : Limits} {pattern text : String} {r : Regex} {cursor : Nat}
  {cursor? : Option Nat} {n : Nat}

theorem successive_none (r : Regex) (text : String) (n : Nat) :
    r.successive text none n = List.replicate n none := by
  induction n with
  | zero => rfl
  | succ n ih => exact congrArg (none :: ·) ih

/-- Where nothing is found, nothing is found any more. -/
theorem successive_eq_replicate (hnone : cursor?.bind (r.findFrom? text) = none) (n : Nat) :
    r.successive text cursor? n = List.replicate n none := by
  cases n with
  | zero => rfl
  | succ n =>
    rw [successive, hnone, List.replicate_succ, ← successive_none r text n]
    rfl

/-- Whatever is found lies behind the cursor. -/
theorem isBetween_of_mem_successive (hbuild : build flags limits pattern = .ok r) {s : Span}
    (hs : some s ∈ r.successive text cursor? n) :
    ∃ cursor, cursor? = some cursor ∧ s.IsBetween text.toUTF8 cursor := by
  induction n generalizing cursor? with
  | zero => cases hs
  | succ n ih =>
    cases cursor? with
    | none =>
      rw [successive_none] at hs
      cases List.eq_of_mem_replicate hs
    | some cursor =>
      refine ⟨cursor, rfl, ?_⟩
      rcases List.mem_cons.mp hs with hfound | hs
      · exact isBetween_of_findFrom? hbuild hfound.symm
      · obtain ⟨cursor', hcursor, hs⟩ := ih hs
        cases hfound : (some cursor).bind (r.findFrom? text) with
        | none =>
          rw [hfound] at hcursor
          cases hcursor
        | some t =>
          -- What comes next lies behind a match that lies behind the cursor.
          have ht := isBetween_of_findFrom? hbuild hfound
          rw [hfound] at hcursor
          have hstop := (Matcher.stop_le_of_cursorAfter? hcursor).1
          exact hs.mono (ht.start_le.trans (ht.le.trans hstop))

/-- Each search but the first begins where the one before it says. -/
theorem isChain_successive (hbuild : build flags limits pattern = .ok r) (text : String)
    (cursor? : Option Nat) (n : Nat) :
    (r.successive text cursor? n).IsChain fun prev? next? =>
      next? = (Matcher.cursorAfter? text.toUTF8 prev?).bind (r.findFrom? text) ∧
        ∀ s ∈ prev?, s.IsBetween text.toUTF8 0 := by
  induction n generalizing cursor? with
  | zero => exact List.IsChain.nil
  | succ n ih =>
    refine List.isChain_cons.mpr ⟨fun next? hnext => ⟨?_, fun s hs => ?_⟩, ih _⟩
    · cases n with
      | zero => cases hnext
      | succ n => exact (Option.some.inj hnext).symm
    · obtain ⟨cursor, -, hfound⟩ := Option.bind_eq_some_iff.mp (Option.mem_def.mp hs)
      exact (isBetween_of_findFrom? hbuild hfound).mono (Nat.zero_le cursor)

/-- Matches lie one behind the other. -/
theorem pairwise_successive (hbuild : build flags limits pattern = .ok r) (text : String)
    (cursor? : Option Nat) (n : Nat) :
    (r.successive text cursor? n).Pairwise fun prev? next? => ∀ s ∈ prev?, ∀ t ∈ next?,
      s.stop ≤ t.start ∧ (s.isEmpty → s.stop < t.start) := by
  induction n generalizing cursor? with
  | zero => exact List.Pairwise.nil
  | succ n ih =>
    refine List.pairwise_cons.mpr ⟨fun next? hnext s hs t ht => ?_, ih _⟩
    obtain rfl := Option.mem_def.mp ht
    obtain ⟨cursor', hcursor, ht⟩ := isBetween_of_mem_successive hbuild hnext
    rw [Option.mem_def.mp hs] at hcursor
    obtain ⟨hstop, hempty⟩ := Matcher.stop_le_of_cursorAfter? hcursor
    exact ⟨hstop.trans ht.start_le, fun hs => Nat.lt_of_lt_of_le (hempty hs) ht.start_le⟩

theorem exhausted_successive (r : Regex) (text : String) (cursor? : Option Nat) (n : Nat) :
    (r.successive text cursor? n).Pairwise fun prev? next? => prev? = none → next? = none := by
  induction n generalizing cursor? with
  | zero => exact List.Pairwise.nil
  | succ n ih =>
    refine List.pairwise_cons.mpr ⟨fun next? hnext hnone => ?_, ih _⟩
    rw [hnone] at hnext
    exact List.eq_of_mem_replicate (successive_none r text n ▸ hnext)

/-- A match starts at one of the positions that are left for it, and the cursor moves past it. -/
theorem startsLeft_cursorAfter?_lt (hbuild : build flags limits pattern = .ok r) {s : Span}
    (hs : cursor?.bind (r.findFrom? text) = some s) :
    Matcher.startsLeft text.toUTF8 (Matcher.cursorAfter? text.toUTF8 (some s)) <
      Matcher.startsLeft text.toUTF8 cursor? := by
  obtain ⟨cursor, rfl, hs⟩ := Option.bind_eq_some_iff.mp hs
  have hbetween := isBetween_of_findFrom? hbuild hs
  have hstart : s.start ∈ Utf8.boundariesFrom text.toUTF8 cursor :=
    Utf8.mem_boundariesFrom.mpr
      ⟨⟨hbetween.start_le, hbetween.le.trans hbetween.stop_le⟩, hbetween.isBoundary_start⟩
  cases hcursor : Matcher.cursorAfter? text.toUTF8 (some s) with
  | none => exact Finset.card_pos.mpr ⟨s.start, hstart⟩
  | some cursor' =>
    exact Utf8.card_boundariesFrom_lt hstart
      (Matcher.start_lt_of_cursorAfter? hbetween.le hcursor)

/-- There are no more matches than positions for them to start at. -/
theorem countP_successive_le (hbuild : build flags limits pattern = .ok r) (text : String)
    (cursor? : Option Nat) (n : Nat) :
    (r.successive text cursor? n).countP (·.isSome) ≤
      Matcher.startsLeft text.toUTF8 cursor? := by
  induction n generalizing cursor? with
  | zero => exact Nat.zero_le _
  | succ n ih =>
    cases hfound : cursor?.bind (r.findFrom? text) with
    | none =>
      rw [successive_eq_replicate hfound, List.countP_replicate]
      exact Nat.zero_le _
    | some s =>
      rw [successive, hfound, List.countP_cons_of_pos rfl]
      exact Nat.lt_of_le_of_lt (ih _) (startsLeft_cursorAfter?_lt hbuild hfound)

/-- Searches from a cursor on find a succession of matches. -/
theorem isSuccession_successive (hbuild : build flags limits pattern = .ok r) (text : String)
    (cursor n : Nat) : r.IsSuccession text cursor (r.successive text (some cursor) n) := by
  have hchain := isChain_successive hbuild text (some cursor) n
  have hordered := pairwise_successive hbuild text (some cursor) n
  constructor
  case first =>
    intro span? hfirst
    cases n with
    | zero => cases hfirst
    | succ n => exact (Option.some.inj hfirst).symm
  case behind =>
    refine hchain.imp fun prev? next? ⟨hnext, _⟩ s hs hempty => ?_
    rw [hnext, Option.mem_def.mp hs, Matcher.cursorAfter?_of_not_isEmpty hempty]
    rfl
  case behindEmpty =>
    refine hchain.imp fun prev? next? ⟨hnext, hprev⟩ s hs hempty => ?_
    have hbetween := hprev s hs
    rw [hnext, Option.mem_def.mp hs, Matcher.cursorAfter?_of_isEmpty hempty]
    rcases Nat.eq_or_lt_of_le hbetween.stop_le with hend | hlt
    · rw [hend, Utf8.decodeAt?_size]
      exact Or.inl ⟨rfl, rfl⟩
    · obtain ⟨c, hc⟩ := Utf8.exists_decodeAt?_of_isBoundary (h := text.toUTF8) text.isValidUTF8 hlt
        hbetween.isBoundary_stop
      refine Or.inr ⟨c, hc, ?_⟩
      rw [hc]
      rfl
  case ordered => exact hordered
  case nodup =>
    refine List.pairwise_filterMap.mpr (hordered.imp_of_mem fun hprev _ hlies s hs t ht heq => ?_)
    -- A match that is found twice lies behind itself, so it is empty, and it does not touch itself.
    obtain rfl : _ = some s := hs
    obtain ⟨_, -, hbetween⟩ := isBetween_of_mem_successive hbuild hprev
    obtain ⟨hstop, hempty⟩ := hlies s rfl t ht
    subst heq
    exact absurd (hempty (beq_iff_eq.mpr (Nat.le_antisymm hbetween.le hstop)))
      (Nat.not_lt.mpr hbetween.le)
  case exhausted => exact exhausted_successive r text (some cursor) n
  case count_le =>
    rintro rfl
    rw [← Utf8.card_boundariesFrom_toUTF8]
    exact countP_successive_le hbuild text (some 0) n

end Regex

namespace Matcher

variable {flags : Flags} {limits : Regex.Limits} {pattern text : String} {r : Regex} {m : Matcher}

/-- A search finds what the regular expression finds from the cursor on, whatever other calls have
gone before. -/
theorem IsFor.fst_find (h : m.IsFor r text) (hbuild : Regex.build flags limits pattern = .ok r) :
    m.find.1 = m.cursor?.bind (r.findFrom? text) := by
  unfold Matcher.find
  split
  · next hnone => rw [hnone, Option.bind_none]
  · next start hstart =>
    rw [hstart, Option.bind_some,
      ← Regex.map_span_search_eq_findFrom? hbuild text start h.cache, ← h.regex, ← h.haystack]
    rfl

/-- The calls in between do not show in what is found. -/
theorem IsFor.findings_eq_successive (h : m.IsFor r text)
    (hbuild : Regex.build flags limits pattern = .ok r) {calls : List Call}
    (hcalls : ∀ c ∈ calls, c.isReset = false) :
    m.findings calls = r.successive text m.cursor? (calls.count .find) := by
  induction calls generalizing m with
  | nil => rfl
  | cons c calls ih =>
    obtain ⟨hreset, hrest⟩ := List.forall_mem_cons.mp hcalls
    have hafter : m.findings (c :: calls) = (m.finding? c).toList ++
        r.successive text (m.after c).cursor? (calls.count .find) := by
      rw [findings, ih (h.after_of_not_isReset hreset) hrest]
    by_cases hfind : c = .find
    · subst hfind
      have hcursor : (m.after .find).cursor? =
          cursorAfter? text.toUTF8 (m.cursor?.bind (r.findFrom? text)) := by
        rw [← h.fst_find hbuild, ← h.haystack]
        exact cursor?_find m
      rw [hafter, hcursor, List.count_cons_self, Regex.successive, ← h.fst_find hbuild]
      rfl
    · rw [hafter, finding?_eq_none hreset hfind, cursor?_after hreset hfind,
        List.count_cons_of_ne hfind]
      rfl

theorem IsFor.fst_findFrom (h : m.IsFor r text)
    (hbuild : Regex.build flags limits pattern = .ok r) (start : Nat) :
    (m.findFrom start).1 = r.findFrom? text start := by
  unfold Matcher.findFrom
  split
  · next hlt =>
    rw [h.haystack] at hlt
    exact (r.findFrom?_of_size_lt hlt).symm
  · exact (h.reset.withCursor (some start)).fst_find hbuild

/-- What is found at the beginning and behind it are successive searches from the cursor on. -/
theorem Begins.append_successive {cursor : Nat} {found : List (Option Span)}
    (h : Begins r text cursor found m) (hbuild : Regex.build flags limits pattern = .ok r)
    (n : Nat) :
    found ++ r.successive text m.cursor? n =
      r.successive text (some cursor) (found.length + n) := by
  cases h with
  | matcher | reset | resetWith =>
    rw [List.nil_append, List.length_nil, Nat.zero_add]
    rfl
  | @findFrom _ m _ h =>
    rw [List.length_singleton, Nat.add_comm, Regex.successive, List.singleton_append,
      cursor?_findFrom, h.isFor.haystack, h.isFor.fst_findFrom hbuild]
    rfl

/-- Between two resets, other calls do not show in what is found, and one match follows the
other. -/
theorem findings_between_resets (hbuild : Regex.build flags limits pattern = .ok r) {cursor : Nat}
    {found : List (Option Span)} (hm : Begins r text cursor found m) {calls : List Call}
    (hcalls : ∀ c ∈ calls, c.isReset = false) :
    m.findings calls = m.findings (List.replicate (calls.count .find) .find) ∧
      r.IsSuccession text cursor (found ++ m.findings calls) := by
  have hfindings := hm.isFor.findings_eq_successive hbuild hcalls
  have halone : m.findings (List.replicate (calls.count .find) .find) =
      r.successive text m.cursor? ((List.replicate (calls.count .find) .find).count Call.find) :=
    hm.isFor.findings_eq_successive hbuild fun c hc => List.eq_of_mem_replicate hc ▸ rfl
  rw [List.count_replicate_self] at halone
  refine ⟨hfindings.trans halone.symm, ?_⟩
  rw [hfindings, hm.append_successive hbuild]
  exact Regex.isSuccession_successive hbuild text cursor _

/-- The empty pattern matches before every character of `aé` and at the end, whatever is asked of
the matcher in between. -/
theorem findings_empty_between_resets :
    ∃ r, Regex.build {} {} "" = .ok r ∧ Begins r "aé" 0 [] (r.matcher "aé") ∧
      (∀ c ∈ [Call.find, .isFullMatch, .find, .group 0, .find, .find], c.isReset = false) ∧
      (r.matcher "aé").findings [.find, .isFullMatch, .find, .group 0, .find, .find] =
        [some ⟨0, 0⟩, some ⟨1, 1⟩, some ⟨3, 3⟩, none] ∧
      r.IsSuccession "aé" 0 [some ⟨0, 0⟩, some ⟨1, 1⟩, some ⟨3, 3⟩, none] := by
  have hfindings : (Regex.matcher ⟨"", {}, .ofExpr false .empty⟩ "aé").findings
      [.find, .isFullMatch, .find, .group 0, .find, .find] =
        [some ⟨0, 0⟩, some ⟨1, 1⟩, some ⟨3, 3⟩, none] := by decide +kernel
  have hcalls : ∀ c ∈ [Call.find, .isFullMatch, .find, .group 0, .find, .find],
      c.isReset = false := by decide
  have hsuccession := (findings_between_resets Regex.build_empty (.matcher "aé") hcalls).2
  rw [hfindings] at hsuccession
  exact ⟨_, Regex.build_empty, .matcher "aé", hcalls, hfindings, hsuccession⟩

end Matcher
end LinearRegex
