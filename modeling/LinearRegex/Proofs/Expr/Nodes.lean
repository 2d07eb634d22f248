import LinearRegex.Expr.Basic

/-!
# The nodes of an expression

The nodes of an expression are listed in the order in which a pattern shows them: each before those
below it, and left before right.  Its groups are those of its nodes that are groups, with their
numbers and names.  The largest number (`Expr.captureCount_eq`) and the names
(`Expr.groupNames_eq`) can be read off this list.
-/

namespace LinearRegex
namespace Expr

mutual

/-- The nodes of an expression, each before those below it and left before right. -/
def nodes : Expr → List Expr
  | repetition min max greedy body => repetition min max greedy body :: body.nodes
  | capture index name body => capture index name body :: body.nodes
  | concat parts => concat parts :: nodesOf parts
  | alternation branches => alternation branches :: nodesOf branches
  | e => [e]

/-- The nodes of a list of expressions. -/
def nodesOf : List Expr → List Expr
  | [] => []
  | e :: es => e.nodes ++ nodesOf es

end

/-- The number and the name of a group. -/
def group? : Expr → Option (Nat × Option String)
  | capture index name _ => some (index, name)
  | _ => none

/-- The groups of an expression with their numbers and names, outer before inner and left before
right. -/
def groups (e : Expr) : List (Nat × Option String) :=
  e.nodes.filterMap group?

variable {x : Expr} {parts branches : List Expr}

theorem nodesOf_eq_flatMap (es : List Expr) : nodesOf es = es.flatMap nodes := by
  induction es with
  | nil => rfl
  | cons e es ih => rw [nodesOf, ih, List.flatMap_cons]

theorem mem_nodes_concat :
    x ∈ (concat parts).nodes ↔ x = concat parts ∨ ∃ e ∈ parts, x ∈ e.nodes := by
  rw [nodes, nodesOf_eq_flatMap, List.mem_cons, List.mem_flatMap]

theorem mem_nodes_alternation :
    x ∈ (alternation branches).nodes ↔ x = alternation branches ∨ ∃ e ∈ branches, x ∈ e.nodes := by
  rw [nodes, nodesOf_eq_flatMap, List.mem_cons, List.mem_flatMap]

theorem groups_repetition (min : Nat) (max : Option Nat) (greedy : Bool) (body : Expr) :
    (repetition min max greedy body).groups = body.groups := by
  rw [groups, nodes, List.filterMap_cons_none rfl, groups]

theorem groups_capture (index : Nat) (name : Option String) (body : Expr) :
    (capture index name body).groups = (index, name) :: body.groups := by
  rw [groups, nodes]
  rfl

theorem groups_concat (parts : List Expr) : (concat parts).groups = parts.flatMap groups := by
  rw [groups, nodes, List.filterMap_cons_none rfl, nodesOf_eq_flatMap, List.filterMap_flatMap]
  rfl

theorem groups_alternation (branches : List Expr) :
    (alternation branches).groups = branches.flatMap groups := by
  rw [groups, nodes, List.filterMap_cons_none rfl, nodesOf_eq_flatMap, List.filterMap_flatMap]
  rfl

theorem foldr_max_append (ns ms : List Nat) :
    (ns ++ ms).foldr max 0 = max (ns.foldr max 0) (ms.foldr max 0) := by
  have hassoc : ns.foldr max (max 0 (ms.foldr max 0)) = max (ns.foldr max 0) (ms.foldr max 0) :=
    List.foldr_assoc
  rw [List.foldr_append, ← hassoc, Nat.zero_max]

mutual

/-- The largest number of a group is that of the groups that are listed. -/
theorem captureCount_eq : ∀ e : Expr, e.captureCount = (e.groups.map (·.1)).foldr max 0
  | empty | literal .. | charClass _ | look _ => rfl
  | repetition _ _ _ body => by
    rw [captureCount, groups_repetition]
    exact captureCount_eq body
  | capture _ _ body => by
    rw [captureCount, groups_capture, captureCount_eq body]
    rfl
  | concat parts => by
    rw [captureCount, groups_concat]
    exact captureCounts_eq parts
  | alternation branches => by
    rw [captureCount, groups_alternation]
    exact captureCounts_eq branches

theorem captureCounts_eq : ∀ es : List Expr,
    captureCounts es = ((es.flatMap groups).map (·.1)).foldr max 0
  | [] => rfl
  | e :: es => by
    rw [captureCounts, List.flatMap_cons, List.map_append, foldr_max_append, captureCount_eq e,
      captureCounts_eq es]

end

/-- A group with a name, its number before the name. -/
def named? (group : Nat × Option String) : Option (Nat × String) :=
  group.2.map fun name => (group.1, name)

mutual

/-- The groups with a name are among those that are listed, in the same order. -/
theorem groupNames_eq : ∀ e : Expr, e.groupNames = e.groups.filterMap named?
  | empty | literal .. | charClass _ | look _ => rfl
  | repetition _ _ _ body => by
    rw [groupNames, groups_repetition]
    exact groupNames_eq body
  | capture _ none body => by
    rw [groupNames, groups_capture, groupNames_eq body]
    rfl
  | capture _ (some _) body => by
    rw [groupNames, groups_capture, groupNames_eq body]
    rfl
  | concat parts => by
    rw [groupNames, groups_concat]
    exact groupNamesOf_eq parts
  | alternation branches => by
    rw [groupNames, groups_alternation]
    exact groupNamesOf_eq branches

theorem groupNamesOf_eq : ∀ es : List Expr,
    groupNamesOf es = (es.flatMap groups).filterMap named?
  | [] => rfl
  | e :: es => by
    rw [groupNamesOf, List.flatMap_cons, List.filterMap_append, groupNames_eq e,
      groupNamesOf_eq es]

end

theorem map_groupNames (e : Expr) : e.groupNames.map (·.2) = e.groups.filterMap (·.2) := by
  have hsecond : (fun group => (named? group).map (·.2)) = Prod.snd := by
    funext ⟨index, name⟩
    cases name <;> rfl
  rw [groupNames_eq, List.map_filterMap, hsecond]

theorem mem_groupNames_iff {e : Expr} {index : Nat} {name : String} :
    (index, name) ∈ e.groupNames ↔ (index, some name) ∈ e.groups := by
  rw [groupNames_eq, List.mem_filterMap]
  constructor
  · rintro ⟨⟨_, none | name'⟩, hgroup, hnamed⟩
    · cases hnamed
    · cases hnamed
      exact hgroup
  · intro hgroup
    exact ⟨_, hgroup, rfl⟩

end Expr
end LinearRegex
