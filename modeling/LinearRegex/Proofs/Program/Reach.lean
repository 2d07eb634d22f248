import LinearRegex.Proofs.Program.Regular

/-!
# What a program can come to

Whether a node leads to a match does not depend on the slots, nor on what a path may repeat: the
results of a node end at the accepting nodes that it reaches (`exists_mem_results_iff`).  Their
slots say where the path began and where it ends.
-/

namespace LinearRegex
namespace Program

/-- A path leads from one node to the other. -/
def Reaches (p : Program) (h : ByteArray) : Node → Node → Prop :=
  Relation.ReflTransGen fun c d => d ∈ p.successors h c

variable {p : Program} {h : ByteArray} {input : Input} {c d : Node} {s : Slots}

theorem Reaches.refl (c : Node) : p.Reaches h c c :=
  Relation.ReflTransGen.refl

theorem Reaches.head {c' : Node} (hc : c' ∈ p.successors h c) (hd : p.Reaches h c' d) :
    p.Reaches h c d :=
  Relation.ReflTransGen.head hc hd

theorem Reaches.trans {b : Node} (hbc : p.Reaches h b c) (hcd : p.Reaches h c d) :
    p.Reaches h b d :=
  Relation.ReflTransGen.trans hbc hcd

/-- A path that goes anywhere goes on to a successor first. -/
theorem Reaches.eq_or_exists (hd : p.Reaches h c d) :
    c = d ∨ ∃ c' ∈ p.successors h c, p.Reaches h c' d := by
  rcases Relation.ReflTransGen.cases_head hd with heq | ⟨c', hc', hrest⟩
  · exact Or.inl heq
  · exact Or.inr ⟨c', hc', hrest⟩

/-- A path leads to all the nodes that it comes to. -/
theorem reaches_of_isChain {path : List Node}
    (hchain : (c :: path).IsChain fun c d => d ∈ p.successors h c) (hd : d ∈ c :: path) :
    p.Reaches h c d := by
  induction path generalizing c with
  | nil => exact List.mem_singleton.mp hd ▸ .refl d
  | cons c' path ih =>
    obtain ⟨hc', hchain⟩ := List.isChain_cons_cons.mp hchain
    rcases List.mem_cons.mp hd with rfl | hd
    · exact .refl d
    · exact .head hc' (ih hchain hd)

theorem Reaches.le (hd : p.Reaches h c d) : c.2 ≤ d.2 := by
  induction hd with
  | refl => exact Nat.le_refl _
  | tail _ hlast ih => exact Nat.le_trans ih (le_of_mem_successors hlast)

/-- A path to a match goes on from every instruction that does not accept. -/
theorem Reaches.of_instr {i pos : Nat} {instr : Instr} (hi : p.instrs[i]? = some instr)
    (hne : instr ≠ .accept) (hat : p.instrs[d.1]? = some .accept) (hd : p.Reaches h (i, pos) d) :
    ∃ c ∈ instr.successors h pos, p.Reaches h c d := by
  rcases hd.eq_or_exists with rfl | hexists
  · rw [hi, Option.some.injEq] at hat
    exact absurd hat hne
  · rwa [successors_of_instr hi] at hexists

theorem lt_size_of_mem_successors (hd : d ∈ p.successors h c) : c.1 < p.size := by
  by_contra hge
  have hnone : p.instrs[c.1]? = none := getElem?_neg p.instrs c.1 hge
  simp [successors, targetsAt, nextAt?, hnone] at hd

/-- A successor that lies further on has consumed a byte. -/
theorem le_size_of_mem_successors (hc : c.2 ≤ h.size) (hd : d ∈ p.successors h c) :
    d.2 ≤ h.size := by
  rw [successors, List.mem_append, List.mem_map, Option.mem_toList, Option.map_eq_some_iff] at hd
  rcases hd with ⟨t, -, rfl⟩ | ⟨t, ht, rfl⟩
  · exact hc
  · exact pos_lt_of_nextAt? ht

theorem Reaches.le_size (hc : c.2 ≤ h.size) (hd : p.Reaches h c d) : d.2 ≤ h.size := by
  induction hd with
  | refl => exact hc
  | tail _ hlast ih => exact le_size_of_mem_successors ih hlast

/-- A path to a match keeps to the nodes that a search can come to. -/
theorem Reaches.within_nodes (hstart : input.start ≤ c.2) (hc : c.2 ≤ input.haystack.size)
    (hd : p.Reaches input.haystack c d) (haccepts : p.accepts input d) :
    c ∈ p.nodes input ∧
      Relation.ReflTransGen
        (fun i j => (p.graph input.haystack).Follows i j ∧ j ∈ p.nodes input) c d := by
  induction hd using Relation.ReflTransGen.head_induction_on with
  | refl => exact ⟨mem_nodes.mpr ⟨lt_size_of_accepts haccepts, hstart, hc⟩, .refl⟩
  | head hfirst _ ih =>
    obtain ⟨hmem, hpath⟩ := ih (Nat.le_trans hstart (le_of_mem_successors hfirst))
      (le_size_of_mem_successors hc hfirst)
    exact ⟨mem_nodes.mpr ⟨lt_size_of_mem_successors hfirst, hstart, hc⟩,
      .head ⟨hfirst, hmem⟩ hpath⟩

/-- The results of a node end at the accepting nodes that it reaches. -/
theorem exists_mem_results_iff (hstart : input.start ≤ c.2) (hc : c.2 ≤ input.haystack.size)
    (s : Slots) :
    (∃ s', (d, s') ∈ p.results input c s) ↔
      p.Reaches input.haystack c d ∧ p.accepts input d := by
  have htrails := (p.graph input.haystack).exists_mem_trails_iff (p.nodes input) (c, s) d
  constructor
  · rintro ⟨s', hmem⟩
    obtain ⟨hmem, haccepts⟩ := List.mem_filter.mp hmem
    obtain ⟨-, hpath⟩ := htrails.mp ⟨(d, s'), hmem, rfl⟩
    exact ⟨Relation.ReflTransGen.mono (fun _ _ hstep => hstep.1) _ _ hpath, haccepts⟩
  · rintro ⟨hpath, haccepts⟩
    obtain ⟨⟨d', s'⟩, hmem, rfl⟩ := htrails.mpr (hpath.within_nodes hstart hc haccepts)
    exact ⟨s', List.mem_filter.mpr ⟨hmem, haccepts⟩⟩

theorem results_eq_nil_iff (hstart : input.start ≤ c.2) (hc : c.2 ≤ input.haystack.size) :
    p.results input c s = [] ↔ ∀ d, p.Reaches input.haystack c d → p.accepts input d = false := by
  rw [List.eq_nil_iff_forall_not_mem]
  constructor
  · intro hnone d hd
    by_contra haccepts
    rw [Bool.not_eq_false] at haccepts
    obtain ⟨s', hmem⟩ := (exists_mem_results_iff hstart hc s).mpr ⟨hd, haccepts⟩
    exact hnone _ hmem
  · rintro hnone ⟨d, s'⟩ hmem
    obtain ⟨hd, haccepts⟩ := (exists_mem_results_iff hstart hc s).mp ⟨s', hmem⟩
    rw [hnone d hd] at haccepts
    cases haccepts

theorem accepts_of_mem_results {a : Node × Slots} (ha : a ∈ p.results input c s) :
    p.accepts input a.1 :=
  (List.mem_filter.mp ha).2

/-- No match ends before the node that leads to it. -/
theorem le_of_mem_results {a : Node × Slots} (ha : a ∈ p.results input c s) : c.2 ≤ a.1.2 := by
  refine (p.graph input.haystack).forall_mem_trails (P := fun a => c.2 ≤ a.1.2) (Nat.le_refl _) ?_ a
    (List.mem_filter.mp ha).1
  intro b hb a' ha'
  obtain ⟨d, hd, rfl⟩ := List.mem_map.mp ha'
  exact Nat.le_trans hb (le_of_mem_successors hd)

/-- A match has as many slots as its path began with. -/
theorem size_of_mem_results {a : Node × Slots} (ha : a ∈ p.results input c s) :
    a.2.size = s.size := by
  refine (p.graph input.haystack).forall_mem_trails (P := fun a => a.2.size = s.size) rfl ?_ a
    (List.mem_filter.mp ha).1
  intro b hb a' ha'
  obtain ⟨d, -, rfl⟩ := List.mem_map.mp ha'
  exact (p.size_stored b.1 b.2).trans hb

theorem instr_of_accepts (hd : p.accepts input d) : p.instrs[d.1]? = some .accept := by
  rw [accepts, Bool.and_eq_true, beq_iff_eq] at hd
  exact hd.1

end Program

namespace IsBegun

variable {p : Program} {h : ByteArray} {input : Input} {start : Nat} {c : Node} {s : Slots}

theorem of_mem_trails (hp : p.Regular) (hc : IsBegun p start c s) {free : Finset Node}
    {a : Node × Slots} (ha : a ∈ (p.graph h).trails free (c, s)) : IsBegun p start a.1 a.2 := by
  refine (p.graph h).forall_mem_trails (P := fun a => IsBegun p start a.1 a.2) hc ?_ a ha
  rintro ⟨d, s'⟩ hd b hb
  rw [Program.next_graph, List.mem_map] at hb
  obtain ⟨d', hd', rfl⟩ := hb
  exact hd.next hp hd'

/-- At a match the slots say where the path began and where it ends. -/
theorem start_stop_eq (hp : p.Regular) (hc : IsBegun p start c s)
    (hat : p.instrs[c.1]? = some .accept) : s.start = start ∧ s.stop = c.2 := by
  refine ⟨hc.start_eq fun hzero => ?_, hc.stop_eq hat⟩
  rw [hzero, hp.first] at hat
  cases hat

theorem of_mem_results (hp : p.Regular) (hc : IsBegun p start c s) {a : Node × Slots}
    (ha : a ∈ p.results input c s) : IsBegun p start a.1 a.2 :=
  hc.of_mem_trails hp (List.mem_filter.mp ha).1

end IsBegun
end LinearRegex
