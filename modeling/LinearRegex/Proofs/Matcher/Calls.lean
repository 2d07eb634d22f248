import LinearRegex.Proofs.Search.Engine
import LinearRegex.Regex.Matcher

/-!
# Calls to a matcher

A matcher is called in any order, and every call may change it.  None changes its regular
expression, and the text is changed by nothing but `resetWith` (`Matcher.IsFor`).  Only the calls
that find a match, and those that start the matcher anew, move the cursor.
-/

namespace LinearRegex
namespace Matcher

/-- The calls that a matcher answers, but for those that ask for its regular expression or its
text. -/
inductive Call where
  | find
  | findFrom (start : Nat)
  | isFullMatch
  | isMatchAtStart
  | start
  | stop
  | group (i : Nat)
  | groupNamed (name : String)
  | groupSpan (i : Nat)
  | reset
  | resetWith (text : String)
deriving DecidableEq

/-- The call starts the matcher anew. -/
def Call.isReset : Call → Bool
  | findFrom _ | reset | resetWith _ => true
  | _ => false

/-- The text of a matcher for `text` after the call. -/
def Call.textAfter (text : String) : Call → String
  | resetWith text' => text'
  | _ => text

/-- The matcher after the call. -/
def after (m : Matcher) : Call → Matcher
  | .find => m.find.2
  | .findFrom start => (m.findFrom start).2
  | .isFullMatch => m.isFullMatch.2
  | .isMatchAtStart => m.isMatchAtStart.2
  | .start | .stop | .group _ | .groupNamed _ | .groupSpan _ => m
  | .reset => m.reset
  | .resetWith text => m.resetWith text

/-- What the call finds, if it looks for a match. -/
def finding? (m : Matcher) : Call → Option (Option Span)
  | .find => some m.find.1
  | .findFrom start => some (m.findFrom start).1
  | _ => none

/-- What the calls find that look for a match. -/
def findings (m : Matcher) : List Call → List (Option Span)
  | [] => []
  | c :: cs => (m.finding? c).toList ++ (m.after c).findings cs

/-- A matcher of `r` for `text`, after any calls. -/
inductive IsReachable (r : Regex) : (text : String) → Matcher → Prop
  | matcher (text : String) : IsReachable r text (r.matcher text)
  | after {text : String} {m : Matcher} (c : Call) (h : IsReachable r text m) :
      IsReachable r (c.textAfter text) (m.after c)

/-- A matcher of `r` for `text` has just been made or started anew, from `cursor` on.  `found` is
what it found with that, if it looked for a match. -/
inductive Begins (r : Regex) :
    (text : String) → (cursor : Nat) → (found : List (Option Span)) → Matcher → Prop
  | matcher (text : String) : Begins r text 0 [] (r.matcher text)
  | reset {text : String} {m : Matcher} (h : IsReachable r text m) : Begins r text 0 [] m.reset
  | resetWith {text : String} {m : Matcher} (text' : String) (h : IsReachable r text m) :
      Begins r text' 0 [] (m.resetWith text')
  | findFrom {text : String} {m : Matcher} (start : Nat) (h : IsReachable r text m) :
      Begins r text start [(m.findFrom start).1] (m.findFrom start).2

/-- The matcher is one of `r` for `text`, and its cache is one that searches have left. -/
structure IsFor (r : Regex) (text : String) (m : Matcher) : Prop where
  regex : m.regex = r
  haystack : m.haystack = text.toUTF8
  cache : m.cache.IsReachable

variable {r : Regex} {text : String} {m : Matcher}

theorem isFor_matcher (r : Regex) (text : String) : (r.matcher text).IsFor r text :=
  ⟨rfl, rfl, .empty⟩

theorem IsFor.search (h : m.IsFor r text) (input : Input) : (m.search input).2.IsFor r text :=
  ⟨h.regex, h.haystack, .search m.regex.program input h.cache⟩

theorem IsFor.reset (h : m.IsFor r text) : m.reset.IsFor r text :=
  ⟨h.regex, h.haystack, .empty⟩

theorem IsFor.resetWith (h : m.IsFor r text) (text' : String) :
    (m.resetWith text').IsFor r text' :=
  ⟨h.regex, rfl, .empty⟩

theorem IsFor.withCursor (h : m.IsFor r text) (cursor? : Option Nat) :
    { m with cursor? : Matcher }.IsFor r text :=
  ⟨h.regex, h.haystack, h.cache⟩

theorem IsFor.find (h : m.IsFor r text) : m.find.2.IsFor r text := by
  unfold Matcher.find
  split
  · exact h
  · exact (h.search _).withCursor _

theorem IsFor.findFrom (h : m.IsFor r text) (start : Nat) : (m.findFrom start).2.IsFor r text := by
  unfold Matcher.findFrom
  split
  · exact h.reset.withCursor none
  · exact (h.reset.withCursor (some start)).find

theorem IsFor.after (h : m.IsFor r text) (c : Call) : (m.after c).IsFor r (c.textAfter text) := by
  cases c with
  | find => exact h.find
  | findFrom start => exact h.findFrom start
  | isFullMatch =>
    exact h.search { haystack := m.haystack, anchoredStart := true, anchoredEnd := true }
  | isMatchAtStart => exact h.search { haystack := m.haystack, anchoredStart := true }
  | start | stop | group | groupNamed | groupSpan => exact h
  | reset => exact h.reset
  | resetWith text' => exact h.resetWith text'

theorem IsFor.after_of_not_isReset (h : m.IsFor r text) {c : Call} (hreset : c.isReset = false) :
    (m.after c).IsFor r text := by
  have htext : c.textAfter text = text := by
    cases c with
    | resetWith => cases hreset
    | _ => rfl
  exact htext ▸ h.after c

theorem IsReachable.isFor (h : IsReachable r text m) : m.IsFor r text := by
  induction h with
  | matcher text => exact isFor_matcher r text
  | after c _ ih => exact ih.after c

theorem Begins.isFor {cursor : Nat} {found : List (Option Span)}
    (h : Begins r text cursor found m) : m.IsFor r text := by
  cases h with
  | matcher => exact isFor_matcher r text
  | reset h => exact h.isFor.reset
  | resetWith _ h => exact h.isFor.resetWith text
  | findFrom _ h => exact h.isFor.findFrom cursor

/-- The cursor moves behind what is found. -/
theorem cursor?_find (m : Matcher) : m.find.2.cursor? = cursorAfter? m.haystack m.find.1 := by
  unfold Matcher.find
  split
  · next hnone => exact hnone
  · rfl

theorem cursor?_findFrom (m : Matcher) (start : Nat) :
    (m.findFrom start).2.cursor? = cursorAfter? m.haystack (m.findFrom start).1 := by
  unfold Matcher.findFrom
  split
  · rfl
  · exact cursor?_find { m.reset with cursor? := some start }

/-- A call that neither finds anything nor starts the matcher anew leaves the cursor. -/
theorem cursor?_after {c : Call} (hreset : c.isReset = false) (hfind : c ≠ .find) :
    (m.after c).cursor? = m.cursor? := by
  cases c with
  | find => exact absurd rfl hfind
  | findFrom | reset | resetWith => cases hreset
  | _ => rfl

theorem finding?_eq_none {c : Call} (hreset : c.isReset = false) (hfind : c ≠ .find) :
    m.finding? c = none := by
  cases c with
  | find => exact absurd rfl hfind
  | findFrom => cases hreset
  | _ => rfl

end Matcher
end LinearRegex
