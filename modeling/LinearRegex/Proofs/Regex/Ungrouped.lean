import LinearRegex.Proofs.Regex.Span
import LinearRegex.Proofs.Storage.History
import Mathlib.Data.Option.Basic

/-!
# Searches that are not asked for groups

A search that is not asked for groups keeps two slots instead of all of them, in tables of another
layout, and passes over every store in the other slots.  It finds a match just where a search that
is asked for groups does, with the same span and as many groups, but none of them is set
(`Captures.IsUngrouped`).  This holds of the search that chooses its engine and of every engine by
itself, after any other searches.  A regular expression therefore gives the same answer whether it
is asked for a match, for a span or for groups (`Regex.ungrouped_search_agrees`).
-/

namespace LinearRegex

/-- The captures are those of the same match, without its groups. -/
structure Captures.IsUngrouped (c full : Captures) : Prop where
  group_zero : c.group? 0 = full.group? 0
  size : c.size = full.size
  unset : ∀ g, 0 < g → c.group? g = none

/-- A search by the given engine, or by the engine that is chosen for it. -/
def Query.of (engine? : Option Engine) (p : Program) (input : Input) : Query :=
  match engine? with
  | some e => .forced e p input
  | none => .chosen p input

/-- What a search finds after the given operations. -/
def Query.answer (q : Query) (history : List Operation) : Option Captures :=
  (q.inStorage (Storage.after history)).1

namespace Slots

/-- No group is set in the slots of the match as a whole. -/
theorem offset?_ofMatch_of_le {k : Nat} (hk : 2 ≤ k) (s : Slots) : s.ofMatch.offset? k = none := by
  rw [offset?, getElem?_ofMatch, if_neg (Nat.not_lt.mpr hk)]
  rfl

end Slots

namespace Captures

theorem group?_ofMatch_of_pos (count : Nat) (s : Slots) {g : Nat} (hg : 0 < g) :
    (ofSlots count s.ofMatch).group? g = none := by
  rw [group?, offset?_ofSlots, Slots.offset?_ofMatch_of_le (by omega)]

theorem size_slots_ofSlots (count : Nat) (s : Slots) :
    (ofSlots count s).slots.size = max count s.size := by
  rw [ofSlots, Array.size_append, Slots.size_blank]
  omega

/-- A match without its groups leaves as much room for them. -/
theorem isUngrouped_ofMatch {count : Nat} {s : Slots} (htwo : 2 ≤ count) (hsize : s.size ≤ count) :
    (ofSlots count s.ofMatch).IsUngrouped (ofSlots count s) := by
  constructor
  case group_zero => exact group?_zero_ofMatch count s
  case size =>
    rw [size, size, size_slots_ofSlots, size_slots_ofSlots, Slots.size_ofMatch]
    omega
  case unset =>
    intro g hg
    exact group?_ofMatch_of_pos count s hg

end Captures

namespace Query

variable (longest : Bool) {e : Expr}

/-- Whatever engine a search is made by, and after whatever other searches, it finds the match to be
found. -/
theorem answer_eq (he : e.WellFormed) (engine? : Option Engine) (input : Input)
    (history : List Operation) :
    (Query.of engine? (.ofExpr longest e) input).answer history =
      (Search.best? (.ofExpr longest e) input input.start).map
        (Captures.ofSlots (Program.ofExpr longest e).slotCount) := by
  have hmirrors := Storage.mirrors_after history
  rw [answer, ((Query.of engine? (.ofExpr longest e) input).agrees hmirrors).answer]
  cases engine? with
  | none => exact Search.search_eq_best? longest he hmirrors.marked
  | some engine => exact Search.withEngine_eq_best? longest he engine hmirrors.marked

/-- Not asking for groups leaves them unset, and changes nothing else. -/
theorem rel_answer (he : e.WellFormed) (engine? : Option Engine) (input : Input)
    (history history' : List Operation) :
    Option.Rel Captures.IsUngrouped
      ((Query.of engine? (.ofExpr longest e) { input with wantsGroups := false }).answer history)
      ((Query.of engine? (.ofExpr longest e) { input with wantsGroups := true }).answer
        history') := by
  have hungrouped := Search.best?_ofMatch (.ofExpr longest e) { input with wantsGroups := true }
    input.start
  rw [answer_eq longest he, answer_eq longest he]
  dsimp only at hungrouped ⊢
  rw [hungrouped]
  cases hbest : Search.best? (.ofExpr longest e) { input with wantsGroups := true } input.start with
  | none => exact .none
  | some m =>
    obtain ⟨start, hstart, hm, -⟩ := Search.best?_eq_some_iff.mp hbest
    have hsize := Search.size_of_mem_matchesAt (Search.mem_of_outcome_eq_some hm)
    have htwo := Search.two_le_slotsFor (.ofExpr longest e) { input with wantsGroups := true }
    exact .some (Captures.isUngrouped_ofMatch htwo (Nat.le_of_eq hsize))

end Query

/-! ## Asking a regular expression -/

namespace Captures

variable {c? full? : Option Captures}

theorem isSome_eq_of_rel (hrel : Option.Rel IsUngrouped c? full?) : c?.isSome = full?.isSome := by
  cases hrel <;> rfl

theorem map_span_eq_of_rel (hrel : Option.Rel IsUngrouped c? full?) :
    c?.map (·.span) = full?.map (·.span) := by
  cases hrel with
  | none => rfl
  | some hungrouped =>
    rw [Option.map_some, Option.map_some, span, span, hungrouped.group_zero]

end Captures

namespace Regex

/-- The regular expression gives the same answer whichever way it is asked. -/
structure AgreesOn (r : Regex) (text : String) : Prop where
  isMatch_eq : r.isMatch text = (r.captures? text).isSome
  find_eq : r.find? text = (r.captures? text).map (·.span)
  isSome_find : (r.find? text).isSome = r.isMatch text

theorem search_eq_answer (r : Regex) (input : Input) :
    r.search input = (Query.of none r.program input).answer [] :=
  ((Query.of none r.program input).agrees Storage.mirrors_empty).answer.symm

theorem agreesOn_of_build {flags : Flags} {limits : Limits} {pattern : String} {r : Regex}
    (hbuild : build flags limits pattern = .ok r) (text : String) : r.AgreesOn text := by
  obtain ⟨e, -, he, hprogram⟩ := exists_program_eq_of_build hbuild
  have hrel := Query.rel_answer flags.longest he none { haystack := text.toUTF8 } [] []
  rw [← hprogram, ← search_eq_answer, ← search_eq_answer] at hrel
  have hisMatch : r.isMatch text = (r.captures? text).isSome := Captures.isSome_eq_of_rel hrel
  have hfind : r.find? text = (r.captures? text).map (·.span) := Captures.map_span_eq_of_rel hrel
  refine ⟨hisMatch, hfind, ?_⟩
  rw [hfind, hisMatch, Option.isSome_map]

/-- A search that is not asked for groups finds what one that is asked for them does, but for the
groups, whatever engine they are made by and whatever other searches have been made.  So a regular
expression always tells the same about whether it matches and where. -/
theorem ungrouped_search_agrees :
    (∀ (o : ParserOptions) pattern e, Expr.parse o pattern = .ok e →
      ∀ longest limit p, Program.compile longest limit e = .ok p →
        ∀ (engine? : Option Engine) (input : Input) (history history' : List Operation),
          Option.Rel Captures.IsUngrouped
            ((Query.of engine? p { input with wantsGroups := false }).answer history)
            ((Query.of engine? p { input with wantsGroups := true }).answer history')) ∧
    ∀ flags limits pattern r, build flags limits pattern = .ok r → ∀ text, r.AgreesOn text := by
  constructor
  · intro o pattern e hparse longest limit p hp
    obtain rfl := Program.eq_ofExpr_of_compile hp
    exact Query.rel_answer longest (Expr.wellFormed_of_parse hparse)
  · intro flags limits pattern r hbuild
    exact agreesOn_of_build hbuild

/-- In `xab`, every engine leaves group 1 unset if it is not asked for it. -/
theorem ungrouped_search_repeatedGroup :
    Expr.parse {} "(a|b)*" = .ok .repeatedGroup ∧
      ∃ p, Program.compile true 100 .repeatedGroup = .ok p ∧
        (∀ engine, Option.Rel Captures.IsUngrouped
          ((Query.of (some engine) p
            { haystack := "xab".toUTF8, start := 1, wantsGroups := false }).answer [])
          ((Query.of (some engine) p { haystack := "xab".toUTF8, start := 1 }).answer [])) ∧
        ∃ r, build { longest := true } {} "(a|b)*" = .ok r ∧ r.AgreesOn "xab" := by
  have hcompile : Program.compile true 100 .repeatedGroup =
      .ok (.ofExpr true .repeatedGroup) := by
    rw [Program.compile_eq]
    exact if_pos (by decide)
  obtain ⟨hengines, hregexes⟩ := ungrouped_search_agrees
  refine ⟨Expr.parse_repeatedGroup, _, hcompile, ?_, _, build_repeatedGroup true, ?_⟩
  · intro engine
    exact hengines {} "(a|b)*" _ Expr.parse_repeatedGroup true 100 _ hcompile (some engine)
      { haystack := "xab".toUTF8, start := 1 } [] []
  · exact hregexes _ {} "(a|b)*" _ (build_repeatedGroup true) "xab"

end Regex
end LinearRegex
