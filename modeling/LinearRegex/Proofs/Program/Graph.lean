import LinearRegex.Proofs.Traversal.Paths
import LinearRegex.Search.Lockstep
import Mathlib.Data.Finset.Prod
import Mathlib.Order.Interval.Finset.Nat

/-!
# The graph of a program

A program and a haystack form a graph: its nodes are the instructions at the positions, and its
edges say where an instruction goes on.  What a match is, is said by the paths of this graph that
repeat nothing and end at an accepting node (`Program.results`).  A path never goes back in the
haystack, so it splits into the stretches that it spends at each position, which are paths of a
smaller graph (`Program.layer`); `results_eq_flatMap_yield` puts the stretches together.
-/

namespace LinearRegex

/-- An instruction and a position of the haystack. -/
abbrev Node := Nat × Nat

namespace Instr

theorem isConsuming_of_nextAt? {h : ByteArray} {pos next : Nat} {instr : Instr}
    (hnext : instr.nextAt? h pos = some next) : instr.isConsuming := by
  obtain ⟨b, -, hb⟩ := Option.bind_eq_some_iff.mp hnext
  cases instr <;> simp [next?, isConsuming] at hb ⊢

theorem targetsAt_of_isConsuming {instr : Instr} (hc : instr.isConsuming) (h : ByteArray)
    (pos : Nat) : instr.targetsAt h pos = [] := by
  cases instr <;> simp [isConsuming, targetsAt, targets] at hc ⊢

theorem store_of_isConsuming {instr : Instr} (hc : instr.isConsuming) (s : Slots) (pos : Nat) :
    instr.store s pos = s := by
  cases instr <;> simp [isConsuming, store] at hc ⊢

theorem ne_accept_of_isConsuming {instr : Instr} (hc : instr.isConsuming) : instr ≠ accept := by
  rintro rfl
  cases hc

theorem nextAt?_of_size_le {h : ByteArray} {pos : Nat} (hpos : h.size ≤ pos) (instr : Instr) :
    instr.nextAt? h pos = none := by
  rw [nextAt?, getElem?_neg h pos (Nat.not_lt.mpr hpos), Option.bind_none]

theorem nextAt?_of_not_isConsuming {instr : Instr} (hc : instr.isConsuming = false) (h : ByteArray)
    (pos : Nat) : instr.nextAt? h pos = none := by
  cases hnext : instr.nextAt? h pos with
  | none => rfl
  | some next =>
    rw [isConsuming_of_nextAt? hnext] at hc
    cases hc

/-- What consumes nothing goes on at its position. -/
theorem successors_of_not_isConsuming {instr : Instr} (hc : instr.isConsuming = false)
    (h : ByteArray) (pos : Nat) :
    instr.successors h pos = (instr.targetsAt h pos).map (·, pos) := by
  rw [successors, nextAt?_of_not_isConsuming hc, Option.map_none, Option.toList_none,
    List.append_nil]

/-- What consumes a byte goes on at the next position. -/
theorem successors_of_isConsuming {instr : Instr} (hc : instr.isConsuming) (h : ByteArray)
    (pos : Nat) :
    instr.successors h pos = ((instr.nextAt? h pos).map (·, pos + 1)).toList := by
  rw [successors, targetsAt_of_isConsuming hc, List.map_nil, List.nil_append]

@[simp] theorem successors_accept (h : ByteArray) (pos : Nat) : accept.successors h pos = [] :=
  successors_of_not_isConsuming rfl h pos

/-- What leads on does not end a match. -/
theorem ne_accept_of_mem_successors {h : ByteArray} {pos : Nat} {instr : Instr} {d : Node}
    (hd : d ∈ instr.successors h pos) : instr ≠ accept := by
  rintro rfl
  rw [successors_accept] at hd
  cases hd

@[simp] theorem successors_fail (h : ByteArray) (pos : Nat) : fail.successors h pos = [] :=
  successors_of_not_isConsuming rfl h pos

@[simp] theorem successors_save (h : ByteArray) (pos slot next : Nat) :
    (save slot next).successors h pos = [(next, pos)] :=
  successors_of_not_isConsuming rfl h pos

@[simp] theorem successors_nop (h : ByteArray) (pos next : Nat) :
    (nop next).successors h pos = [(next, pos)] :=
  successors_of_not_isConsuming rfl h pos

@[simp] theorem successors_split (h : ByteArray) (pos first second : Nat) :
    (split first second).successors h pos = [(first, pos), (second, pos)] :=
  successors_of_not_isConsuming rfl h pos

@[simp] theorem successors_look (h : ByteArray) (pos : Nat) (l : Look) (next : Nat) :
    (look l next).successors h pos = if l.holds h pos then [(next, pos)] else [] := by
  rw [successors_of_not_isConsuming rfl, targetsAt]
  split <;> rfl

end Instr

namespace Program

variable (p : Program) (h : ByteArray) (input : Input)

/-- Where the instruction goes on at `pos` without consuming a byte. -/
def targetsAt (pos i : Nat) : List Nat :=
  match p.instrs[i]? with
  | some instr => instr.targetsAt h pos
  | none => []

/-- Where the instruction goes on after consuming the byte at `pos`. -/
def nextAt? (pos i : Nat) : Option Nat :=
  p.instrs[i]?.bind (·.nextAt? h pos)

/-- The nodes that follow one, the preferred one first. -/
def successors (c : Node) : List Node :=
  (p.targetsAt h c.2 c.1).map (·, c.2) ++ ((p.nextAt? h c.2 c.1).map (·, c.2 + 1)).toList

/-- The slots after the instruction of a node. -/
def stored (c : Node) (s : Slots) : Slots :=
  match p.instrs[c.1]? with
  | some instr => instr.store s c.2
  | none => s

/-- The graph of nodes, each with the slots of the path that led to it. -/
def graph : Exploration (Node × Slots) Node where
  key := Prod.fst
  next a := (p.successors h a.1).map (·, p.stored a.1 a.2)
  succ := p.successors h
  map_key_next a := by simp [Function.comp_def]

/-- The graph of the instructions at one position. -/
def layer (pos : Nat) : Exploration Lockstep.Thread Nat where
  key := Lockstep.Thread.index
  next t := (p.targetsAt h pos t.index).map (⟨·, p.stored (t.index, pos) t.slots⟩)
  succ := p.targetsAt h pos
  map_key_next t := by simp [Function.comp_def]

/-- The nodes that a search can come to. -/
def nodes : Finset Node :=
  Finset.range p.size ×ˢ Finset.Icc input.start input.haystack.size

/-- The node ends a match. -/
def accepts (c : Node) : Bool :=
  p.instrs[c.1]? == some .accept && input.mayEndAt c.2

/-- The ends of all paths from a node to a match, and their slots.  The preferred path
comes first. -/
def results (c : Node) (s : Slots) : List (Node × Slots) :=
  ((p.graph input.haystack).trails (p.nodes input) (c, s)).filter fun a => p.accepts input a.1

/-- What a thread leads to without going on at its position. -/
def yield (pos : Nat) (t : Lockstep.Thread) : List (Node × Slots) :=
  (if p.accepts input (t.index, pos) then [((t.index, pos), t.slots)] else []) ++
    match p.nextAt? input.haystack pos t.index with
    | some next => p.results input (next, pos + 1) t.slots
    | none => []

variable {p h input}

theorem next_graph (c : Node) (s : Slots) :
    (p.graph h).next (c, s) = (p.successors h c).map (·, p.stored c s) :=
  rfl

theorem next_layer (pos : Nat) (t : Lockstep.Thread) :
    (p.layer h pos).next t =
      (p.targetsAt h pos t.index).map (⟨·, p.stored (t.index, pos) t.slots⟩) :=
  rfl

theorem mem_nodes {c : Node} :
    c ∈ p.nodes input ↔
      c.1 < p.size ∧ input.start ≤ c.2 ∧ c.2 ≤ input.haystack.size := by
  simp [nodes]

theorem targetsAt_of_instr {pos i : Nat} {instr : Instr} (hi : p.instrs[i]? = some instr) :
    p.targetsAt h pos i = instr.targetsAt h pos := by
  simp [targetsAt, hi]

theorem nextAt?_of_instr {pos i : Nat} {instr : Instr} (hi : p.instrs[i]? = some instr) :
    p.nextAt? h pos i = instr.nextAt? h pos := by
  simp [nextAt?, hi]

theorem successors_of_instr {pos i : Nat} {instr : Instr} (hi : p.instrs[i]? = some instr) :
    p.successors h (i, pos) = instr.successors h pos := by
  simp [successors, targetsAt_of_instr hi, nextAt?_of_instr hi, Instr.successors]

/-- Storing a position leads on to one node. -/
theorem mem_successors_of_save {pos i slot next : Nat} {d : Node}
    (hi : p.instrs[i]? = some (.save slot next)) :
    d ∈ p.successors h (i, pos) ↔ d = (next, pos) := by
  rw [successors_of_instr hi, Instr.successors_save, List.mem_singleton]

/-- A match ends every path. -/
theorem successors_of_accept {c : Node} (hat : p.instrs[c.1]? = some .accept) :
    p.successors h c = [] := by
  have hsuccessors : p.successors h c = Instr.accept.successors h c.2 := successors_of_instr hat
  rw [hsuccessors, Instr.successors_accept]

theorem stored_of_instr {pos i : Nat} {instr : Instr} (hi : p.instrs[i]? = some instr)
    (s : Slots) : p.stored (i, pos) s = instr.store s pos := by
  simp [stored, hi]

theorem mem_successors_of_targetsAt {pos i t : Nat} (ht : t ∈ p.targetsAt h pos i) :
    (t, pos) ∈ p.successors h (i, pos) :=
  List.mem_append_left _ (List.mem_map_of_mem ht)

theorem mem_successors_of_nextAt? {pos i t : Nat} (ht : p.nextAt? h pos i = some t) :
    (t, pos + 1) ∈ p.successors h (i, pos) := by
  refine List.mem_append_right _ (Option.mem_toList.mpr ?_)
  rw [ht]
  rfl

theorem exists_instr {i : Nat} (hi : i < p.size) : ∃ instr, p.instrs[i]? = some instr :=
  ⟨p.instrs[i], getElem?_pos p.instrs i hi⟩

theorem lt_size_of_instr {i : Nat} {instr : Instr} (hi : p.instrs[i]? = some instr) :
    i < p.size := by
  by_contra hge
  rw [getElem?_neg p.instrs i hge] at hi
  cases hi

theorem lt_size_of_nextAt? {pos i next : Nat} (hnext : p.nextAt? h pos i = some next) :
    i < p.size := by
  rw [nextAt?, Option.bind_eq_some_iff] at hnext
  obtain ⟨instr, hi, -⟩ := hnext
  exact lt_size_of_instr hi

/-- What consumes a byte is not at the end. -/
theorem pos_lt_of_nextAt? {pos i next : Nat} (hnext : p.nextAt? h pos i = some next) :
    pos < h.size := by
  by_contra hge
  rw [nextAt?, Option.bind_eq_some_iff] at hnext
  obtain ⟨instr, -, hnext⟩ := hnext
  rw [Instr.nextAt?_of_size_le (Nat.le_of_not_lt hge)] at hnext
  cases hnext

theorem lt_size_of_accepts {c : Node} (hc : p.accepts input c) : c.1 < p.size := by
  simp only [accepts, Bool.and_eq_true, beq_iff_eq] at hc
  exact lt_size_of_instr hc.1

theorem accepts_of_instr {pos i : Nat} {instr : Instr} (hi : p.instrs[i]? = some instr) :
    p.accepts input (i, pos) = (instr == .accept && input.mayEndAt pos) := by
  simp [accepts, hi]

theorem accepts_eq_false {pos i : Nat} {instr : Instr} (hi : p.instrs[i]? = some instr)
    (hne : instr ≠ .accept) : p.accepts input (i, pos) = false := by
  rw [accepts_of_instr hi, beq_eq_false_iff_ne.mpr hne, Bool.false_and]

theorem stored_of_nextAt? {pos i next : Nat} (hnext : p.nextAt? h pos i = some next)
    (s : Slots) : p.stored (i, pos) s = s := by
  rw [nextAt?, Option.bind_eq_some_iff] at hnext
  obtain ⟨instr, hi, hnext⟩ := hnext
  rw [stored_of_instr hi, Instr.store_of_isConsuming (Instr.isConsuming_of_nextAt? hnext)]

/-- No node lies before one that it follows. -/
theorem le_of_mem_successors {c d : Node} (hd : d ∈ p.successors h c) : c.2 ≤ d.2 := by
  rw [successors, List.mem_append, List.mem_map, Option.mem_toList, Option.map_eq_some_iff] at hd
  rcases hd with ⟨i, -, rfl⟩ | ⟨i, -, rfl⟩
  · exact Nat.le_refl _
  · exact Nat.le_succ _

/-- Where a path ends does not depend on its slots. -/
theorem map_fst_results (c : Node) (s s' : Slots) :
    (p.results input c s).map (·.1) = (p.results input c s').map (·.1) := by
  have hkeys : ∀ s, (p.results input c s).map (·.1) =
      ((p.graph input.haystack).onKeys.trails (p.nodes input) c).filter (p.accepts input) := by
    intro s
    have hmap := (p.graph input.haystack).map_key_trails (p.nodes input) (c, s)
    have hkey : (p.graph input.haystack).key (c, s) = c := rfl
    rw [hkey] at hmap
    rw [← hmap, List.filter_map]
    rfl
  rw [hkeys, hkeys]

/-! ## Position by position -/

theorem trails_congr_of_le {free free' : Finset Node} {i pos : Nat} (s : Slots)
    (hagree : ∀ j pos', pos ≤ pos' → ((j, pos') ∈ free ↔ (j, pos') ∈ free')) :
    (p.graph h).trails free ((i, pos), s) = (p.graph h).trails free' ((i, pos), s) := by
  refine (p.graph h).trails_congr (fun c => pos ≤ c.2) (Nat.le_refl pos) ?_ ?_
  · exact fun c hc d hd => Nat.le_trans hc (le_of_mem_successors hd)
  · exact fun c hc => hagree c.1 c.2 hc

/-- The accepting ends of the paths from a node, by the ends of the stretches that the
paths spend at its position. -/
theorem filter_trails_eq_flatMap_yield {pos : Nat} {free : Finset Nat}
    {within : Finset Node} {t : Lockstep.Thread}
    (hhere : ∀ i, (i, pos) ∈ within ↔ i ∈ free) (hsub : free ⊆ Finset.range p.size)
    (hlater : ∀ i pos', pos < pos' → ((i, pos') ∈ within ↔ (i, pos') ∈ p.nodes input)) :
    ((p.graph input.haystack).trails within ((t.index, pos), t.slots)).filter
        (fun a => p.accepts input a.1) =
      ((p.layer input.haystack pos).trails free t).flatMap (p.yield input pos) := by
  induction free, t using Exploration.trails.induct (p.layer input.haystack pos)
    generalizing within with
  | case1 free t hmem ih =>
    have hlt : t.index < p.size := Finset.mem_range.mp (hsub hmem)
    obtain ⟨instr, hinstr⟩ := exists_instr hlt
    have hwithin : (t.index, pos) ∈ within := (hhere t.index).mpr hmem
    rw [Exploration.trails_of_mem _ hmem, Exploration.trails_of_mem _ hwithin,
      List.flatMap_cons, List.filter_cons]
    have herase : ∀ i pos', pos < pos' →
        ((i, pos') ∈ within.erase (t.index, pos) ↔ (i, pos') ∈ p.nodes input) := by
      intro i pos' hpos'
      rw [Finset.mem_erase, ← hlater i pos' hpos', and_iff_right]
      exact fun heq => absurd (congrArg Prod.snd heq) (Nat.ne_of_gt hpos')
    cases hnext : instr.nextAt? input.haystack pos with
    | some next =>
      have hnext' : p.nextAt? input.haystack pos t.index = some next :=
        (nextAt?_of_instr hinstr).trans hnext
      have hrest : (p.graph input.haystack).trails (within.erase (t.index, pos))
            ((next, pos + 1), t.slots) =
          (p.graph input.haystack).trails (p.nodes input) ((next, pos + 1), t.slots) :=
        trails_congr_of_le t.slots fun j pos' hpos' => herase j pos' hpos'
      have hconsuming := Instr.isConsuming_of_nextAt? hnext
      have haccepts : p.accepts input (t.index, pos) = false :=
        accepts_eq_false hinstr (Instr.ne_accept_of_isConsuming hconsuming)
      have htargets : p.targetsAt input.haystack pos t.index = [] := by
        rw [targetsAt_of_instr hinstr, Instr.targetsAt_of_isConsuming hconsuming]
      simp only [next_graph, next_layer, successors, htargets, hnext', stored_of_nextAt? hnext',
        List.map_nil, List.nil_append, Option.map_some, Option.toList_some, List.map_cons,
        List.flatMap_cons, List.flatMap_nil, List.append_nil, yield, haccepts, results,
        Bool.false_eq_true, if_false]
      exact congrArg _ hrest
    | none =>
      have hnext' : p.nextAt? input.haystack pos t.index = none :=
        (nextAt?_of_instr hinstr).trans hnext
      have hbelow : ∀ b ∈ (p.layer input.haystack pos).next t,
          ((p.graph input.haystack).trails (within.erase (t.index, pos))
              ((b.index, pos), b.slots)).filter (fun a => p.accepts input a.1) =
            ((p.layer input.haystack pos).trails (free.erase t.index) b).flatMap
              (p.yield input pos) := by
        intro b _
        refine ih b ?_ ((Finset.erase_subset _ _).trans hsub) herase
        intro i
        rw [Finset.mem_erase, Finset.mem_erase, hhere, Ne, Ne, Prod.mk.injEq]
        simp [layer]
      have hall := List.flatMap_congr hbelow
      rw [next_layer, List.flatMap_map, List.flatMap_map] at hall
      simp only [next_graph, next_layer, successors, hnext', Option.map_none, Option.toList_none,
        List.append_nil, List.map_map, List.flatMap_map, List.filter_flatMap, yield,
        List.flatMap_assoc, Function.comp_def]
      split
      · exact congrArg (_ :: ·) hall
      · exact hall
  | case2 free t hmem =>
    have hwithin : (t.index, pos) ∉ within := mt (hhere t.index).mp hmem
    rw [Exploration.trails_of_notMem _ hmem, Exploration.trails_of_notMem _ hwithin]
    rfl

/-- What a node leads to is what the stretches from it lead to. -/
theorem results_eq_flatMap_yield {pos : Nat} (hstart : input.start ≤ pos)
    (hsize : pos ≤ input.haystack.size) (t : Lockstep.Thread) :
    p.results input (t.index, pos) t.slots =
      ((p.layer input.haystack pos).trails (Finset.range p.size) t).flatMap
        (p.yield input pos) := by
  refine filter_trails_eq_flatMap_yield ?_ subset_rfl (fun _ _ _ => Iff.rfl)
  intro i
  simp [mem_nodes, hstart, hsize]

end Program
end LinearRegex
