import LinearRegex.Proofs.Expr.Numbering
import LinearRegex.Proofs.Program.WellFormed

/-!
# The groups of a program

A program has a table of the names of groups, and slots for every group.  Both are those of the
expression that it has been compiled from, also where the code of a group is left out or is there
several times (`Program.isNumbered_of_parse`).
-/

namespace LinearRegex
namespace Program

/-- The program has the groups of the expression: as many as it has, under their names and their
numbers, and slots for them and for group 0. -/
structure HasGroups (p : Program) (e : Expr) : Prop where
  groupCount : p.groupCount = e.captureCount
  names : p.groupNames.map (·.2) = e.groups.filterMap (·.2)
  groupIndex? : ∀ name index, p.groupIndex? name = some index ↔ (index, some name) ∈ e.groups
  save : ∀ i slot next : Nat, p.instrs[i]? = some (.save slot next) →
    slot < 2 * (e.captureCount + 1)

variable {e : Expr}

/-- Where names differ, looking for a name finds every number that it has. -/
theorem find?_name_iff {table : List (Nat × String)} (hnodup : (table.map (·.2)).Nodup)
    (name : String) (index : Nat) :
    (table.find? fun group => group.2 == name).map (·.1) = some index ↔ (index, name) ∈ table := by
  rw [Option.map_eq_some_iff]
  constructor
  · rintro ⟨group, hfind, rfl⟩
    have hname : group.2 = name := by simpa using List.find?_some hfind
    rw [← hname]
    exact List.mem_of_find?_eq_some hfind
  · intro hmem
    have hsome : (table.find? fun group => group.2 == name).isSome :=
      List.find?_isSome.mpr ⟨(index, name), hmem, beq_self_eq_true name⟩
    obtain ⟨group, hfind⟩ := Option.isSome_iff_exists.mp hsome
    have hname : group.2 = name := by simpa using List.find?_some hfind
    have hgroup := List.inj_on_of_nodup_map hnodup (List.mem_of_find?_eq_some hfind) hmem hname
    exact ⟨group, hfind, congrArg Prod.fst hgroup⟩

theorem hasGroups_ofExpr (longest : Bool) (he : e.IsNumbered) :
    (ofExpr longest e).HasGroups e := by
  constructor
  case groupCount => rfl
  case names => exact e.map_groupNames
  case groupIndex? =>
    intro name index
    have hnodup : (e.groupNames.map (·.2)).Nodup := by
      rw [e.map_groupNames]
      exact he.names
    exact (find?_name_iff hnodup name index).trans Expr.mem_groupNames_iff
  case save =>
    intro i slot next hi
    exact slot_lt hi

/-- In the expression of a pattern the groups are numbered in order, and every program that is
compiled from it has these groups. -/
theorem isNumbered_of_parse {o : ParserOptions} {pattern : String}
    (hparse : Expr.parse o pattern = .ok e) :
    e.IsNumbered ∧ ∀ longest limit p, compile longest limit e = .ok p → p.HasGroups e := by
  have he := Expr.isNumbered_of_run (Expr.run_of_parse hparse)
  refine ⟨he, ?_⟩
  intro longest limit p hp
  obtain rfl := eq_ofExpr_of_compile hp
  exact hasGroups_ofExpr longest he

/-- The expression of `(?<a>b(c))`. -/
def nestedGroups : Expr :=
  .capture 1 (some "a") (.concat [.literal ['b'] false, .capture 2 none (.literal ['c'] false)])

/-- A group without a name in one with a name. -/
theorem isNumbered_nestedGroups :
    Expr.parse {} "(?<a>b(c))" = .ok nestedGroups ∧ nestedGroups.IsNumbered ∧
      ∃ p, compile false 100 nestedGroups = .ok p ∧ p.HasGroups nestedGroups := by
  have hrun : (Parser.State.initial (ParserOptions.modes {}) "(?<a>b(c))".toList).run {} =
      .ok nestedGroups :=
    (Parser.State.run_of_next rfl).trans <| (Parser.State.run_of_next rfl).trans <|
      (Parser.State.run_of_next rfl).trans <| (Parser.State.run_of_next rfl).trans <|
        (Parser.State.run_of_next rfl).trans <| (Parser.State.run_of_next rfl).trans <|
          Parser.State.run_of_finished rfl
  have hparse : Expr.parse {} "(?<a>b(c))" = .ok nestedGroups :=
    congrArg (Except.mapError (Fault.inPattern · "(?<a>b(c))")) hrun
  have hcompile : compile false 100 nestedGroups = .ok (ofExpr false nestedGroups) := by
    rw [compile_eq]
    exact if_pos (by decide)
  obtain ⟨hnumbered, hcompiled⟩ := isNumbered_of_parse hparse
  exact ⟨hparse, hnumbered, _, hcompile, hcompiled _ _ _ hcompile⟩

end Program
end LinearRegex
