import LinearRegex.Proofs.Matcher.Calls
import LinearRegex.Proofs.Regex.Span

/-!
# What a matcher tells of its last search

Right after a search, a matcher tells where the match lies, or nothing at all if there is none
(`Matcher.Tells`).  A call to `find` need not search: where no match is left, it finds nothing and
leaves what the last search has found, so that the matcher still tells of that
(`Matcher.tells_after`).
-/

namespace LinearRegex
namespace Matcher

/-- The matcher tells of a match with the given span, or of none. -/
structure Tells (span? : Option Span) (m : Matcher) : Prop where
  start : m.start? = span?.map (·.start)
  stop : m.stop? = span?.map (·.stop)
  groupSpan : m.groupSpan? 0 = span?
  /-- Without a match there are no groups. -/
  groups : span? = none → ∀ i, m.groupSpan? i = none ∧ m.group? i = none
  groupsNamed : span? = none → ∀ name, m.groupNamed? name = none

variable {flags : Flags} {limits : Regex.Limits} {pattern text : String} {r : Regex} {m : Matcher}
  {span? : Option Span}

/-- A matcher that has found nothing tells nothing. -/
theorem tells_none (h : m.captures? = none) : m.Tells none := by
  have hspan : ∀ i, m.groupSpan? i = none := fun i => by rw [groupSpan?, h, Option.bind_none]
  have hgroup : ∀ i, m.group? i = none := fun i => by rw [group?, hspan, Option.bind_none]
  refine ⟨?_, ?_, hspan 0, fun _ i => ⟨hspan i, hgroup i⟩, fun _ name => ?_⟩
  · rw [start?, h]
    rfl
  · rw [stop?, h]
    rfl
  · rw [groupNamed?, funext hgroup]
    exact Option.bind_fun_none _

theorem Tells.withCursor (h : m.Tells span?) (cursor? : Option Nat) :
    { m with cursor? : Matcher }.Tells span? :=
  ⟨h.start, h.stop, h.groupSpan, h.groups, h.groupsNamed⟩

theorem tells_some {captures : Captures} (h : m.captures? = some captures)
    (hgroup : captures.group? 0 = some captures.span) : m.Tells (some captures.span) := by
  refine ⟨?_, ?_, ?_, nofun, nofun⟩
  · rw [start?, h]
    rfl
  · rw [stop?, h]
    rfl
  · rw [groupSpan?, h, Option.bind_some, captures.get?_of_lt (by decide), hgroup]

theorem fst_search (m : Matcher) (input : Input) :
    (m.search input).1 = (m.search input).2.captures?.map (·.span) :=
  rfl

/-- Right after a search, the matcher tells what it has found. -/
theorem IsFor.tells_search (h : m.IsFor r text)
    (hbuild : Regex.build flags limits pattern = .ok r) (input : Input) :
    (m.search input).2.Tells (m.search input).1 := by
  rw [fst_search]
  cases hfound : (m.search input).2.captures? with
  | none => exact tells_none hfound
  | some captures =>
    have hsearch : (Search.search r.program input m.cache).1 = some captures := h.regex ▸ hfound
    exact tells_some hfound (Regex.group?_zero_of_search hbuild h.cache hsearch)

/-- Where a match is looked for, the matcher tells what is found. -/
theorem IsFor.tells_find (h : m.IsFor r text) (hbuild : Regex.build flags limits pattern = .ok r)
    (hcursor : m.cursor? ≠ none) : m.find.2.Tells m.find.1 := by
  unfold Matcher.find
  split
  · next hnone => exact absurd hnone hcursor
  · next start _ =>
    exact (h.tells_search hbuild { haystack := m.haystack, start }).withCursor _

theorem IsFor.tells_findFrom (h : m.IsFor r text)
    (hbuild : Regex.build flags limits pattern = .ok r) (start : Nat) :
    (m.findFrom start).2.Tells (m.findFrom start).1 := by
  unfold Matcher.findFrom
  split
  · exact tells_none rfl
  · exact (h.reset.withCursor (some start)).tells_find hbuild nofun

/-- Where no match is left, nothing is looked for. -/
theorem find_of_exhausted (h : m.cursor? = none) : m.find = (none, m) := by
  unfold Matcher.find
  split
  · rfl
  · next hsome => cases h.symm.trans hsome

/-- Whatever a matcher has been called with before, right after a call that looks for a match it
tells what that has found, unless no match was left, and so nothing was looked for and nothing
changed. -/
theorem tells_after (hbuild : Regex.build flags limits pattern = .ok r)
    (hm : IsReachable r text m) {c : Call} (hc : m.finding? c = some span?) :
    (m.after c).Tells span? ∨
      c = .find ∧ m.cursor? = none ∧ span? = none ∧ m.after c = m := by
  cases c with
  | find =>
    obtain rfl : m.find.1 = span? := Option.some.inj hc
    by_cases hcursor : m.cursor? = none
    · right
      have hfind := find_of_exhausted hcursor
      exact ⟨rfl, hcursor, congrArg Prod.fst hfind, congrArg Prod.snd hfind⟩
    · left
      exact hm.isFor.tells_find hbuild hcursor
  | findFrom start =>
    obtain rfl : (m.findFrom start).1 = span? := Option.some.inj hc
    left
    exact hm.isFor.tells_findFrom hbuild start
  | _ => cases hc

/-- The empty pattern matches in the empty text, and the matcher tells so. -/
theorem tells_after_empty :
    ∃ r, Regex.build {} {} "" = .ok r ∧ IsReachable r "" (r.matcher "") ∧
      (r.matcher "").finding? .find = some (some ⟨0, 0⟩) ∧
      ((r.matcher "").after .find).Tells (some ⟨0, 0⟩) := by
  have hfinding : (Regex.matcher ⟨"", {}, .ofExpr false .empty⟩ "").finding? .find =
      some (some ⟨0, 0⟩) := by decide +kernel
  have htells := tells_after Regex.build_empty (.matcher "") hfinding
  exact ⟨_, Regex.build_empty, .matcher "", hfinding,
    htells.resolve_right fun ⟨_, hcursor, _⟩ => nomatch hcursor⟩

/-- The empty pattern matches at the end of a text; then nothing is left, and the second call finds
nothing, but the matcher still tells of the first. -/
theorem not_tells_after_exhausted :
    ∃ r m, Regex.build {} {} "" = .ok r ∧ IsReachable r "" m ∧ m.find.1 = none ∧
      m.find.2.start? = some 0 ∧ m.find.2.stop? = some 0 ∧
      m.find.2.groupSpan? 0 = some ⟨0, 0⟩ ∧ m.find.2.group? 0 = some "" := by
  refine ⟨_, _, Regex.build_empty, .after .find (.matcher ""), ?_⟩
  decide +kernel

end Matcher
end LinearRegex
