import LinearRegex.Proofs.Program.Assembly
import LinearRegex.Proofs.Program.Trie

/-!
# The automaton of a set of characters

A set of characters becomes a fragment that consumes one byte after the other until it is left
through a hole.  The bytes on which it is left are the encodings of the characters of the set and no
others, and each of them is read along one way only (`Assembly.emitExpr_ofSet_isExact`).  An
encoding that is cut short, too long or not one of a character at all therefore leads nowhere.

Every instruction of the fragment has transitions that ascend without overlapping
(`Transition.AreApart`), so the first one that is not behind a byte is the only one that can accept
it.
-/

namespace LinearRegex

open ByteRange (FitsAt)
open ByteTrie (consume)
open LiteralPrefix (bytesAt)

/-! ## Transitions that do not overlap -/

namespace Transition

/-- There are transitions, none of them is empty, and they ascend without overlapping. -/
structure AreApart (ts : List Transition) : Prop where
  ne_nil : ts ≠ []
  lo_le_hi : ∀ t ∈ ts, t.lo ≤ t.hi
  ascend : ts.Pairwise fun t u => t.hi < u.lo

theorem accepts_iff {t : Transition} {b : UInt8} : t.accepts b ↔ t.lo ≤ b ∧ b ≤ t.hi := by
  rw [accepts, Bool.and_eq_true, decide_eq_true_eq, decide_eq_true_eq]

/-- Looking for a transition stops early, but misses none that accepts the byte. -/
theorem find?_eq_some_iff {ts : List Transition} (hlohi : ∀ t ∈ ts, t.lo ≤ t.hi)
    (hascend : ts.Pairwise fun t u => t.hi < u.lo) {b : UInt8} {next : Nat} :
    find? ts b = some next ↔ ∃ t ∈ ts, t.accepts b ∧ t.next = next := by
  constructor
  · intro hfind
    obtain ⟨t, ht, hlo, hhi, hnext⟩ := Instr.exists_of_find?_eq_some hfind
    exact ⟨t, ht, accepts_iff.mpr ⟨hlo, hhi⟩, hnext⟩
  · induction ts with
    | nil =>
      rintro ⟨t, ht, -⟩
      cases ht
    | cons u ts ih =>
      rintro ⟨t, ht, haccepts, hnext⟩
      obtain ⟨hbehind, hascend⟩ := List.pairwise_cons.mp hascend
      obtain ⟨hlo, hhi⟩ := accepts_iff.mp haccepts
      have hu := hlohi u List.mem_cons_self
      rw [find?]
      rcases List.mem_cons.mp ht with rfl | ht
      · rw [if_neg (UInt8.not_lt.mpr hlo), if_pos hhi, hnext]
      · have hub : u.hi < b := UInt8.lt_of_lt_of_le (hbehind t ht) hlo
        have hnotlo : ¬ b < u.lo := by
          intro hlt
          exact UInt8.lt_irrefl _ (UInt8.lt_trans hub (UInt8.lt_of_lt_of_le hlt hu))
        rw [if_neg hnotlo, if_neg (UInt8.not_le.mpr hub)]
        apply ih _ hascend
        · exact ⟨t, ht, haccepts, hnext⟩
        · intro v hv
          exact hlohi v (List.mem_cons_of_mem u hv)

end Transition

/-- An instruction goes on where a transition of it accepts the byte. -/
theorem Instr.next?_eq_some_iff {instr : Instr} (hapart : Transition.AreApart instr.transitions)
    {b : UInt8} {next : Nat} :
    instr.next? b = some next ↔ ∃ t ∈ instr.transitions, t.accepts b ∧ t.next = next := by
  cases instr with
  | byteRange t => simp [next?, transitions]
  | sparse ts => exact Transition.find?_eq_some_iff hapart.lo_le_hi hapart.ascend
  | _ => exact absurd rfl hapart.ne_nil

namespace ByteTrie

@[simp] theorem transitions_consume (ts : List Transition) : (consume ts).transitions = ts := by
  unfold consume
  split <;> rfl

/-- A node has a transition for every edge. -/
theorem map_transitions (t : ByteTrie) (next base : Nat) :
    (t.transitions next base).map (fun u => (⟨u.lo, u.hi⟩ : ByteRange)) = t.edges := by
  induction t generalizing base with
  | nil => rfl
  | last r rest ih => exact congrArg (r :: ·) (ih base)
  | step r child rest _ ih => exact congrArg (r :: ·) (ih (base + child.size))

theorem pairwise_edges {t : ByteTrie} (ht : t.IsOrdered) :
    t.edges.Pairwise fun r s => r.hi < s.lo := by
  induction t with
  | nil => exact .nil
  | last r rest ih =>
    obtain ⟨-, hedges, hrest⟩ := ht
    exact .cons hedges (ih hrest)
  | step r child rest _ ih =>
    obtain ⟨-, hedges, -, -, hrest⟩ := ht
    exact .cons hedges (ih hrest)

theorem areApart_transitions {t : ByteTrie} (ht : t.IsOrdered) (hne : t ≠ nil) (next base : Nat) :
    Transition.AreApart (t.transitions next base) := by
  have hmap := t.map_transitions next base
  constructor
  · intro hnil
    rw [hnil] at hmap
    cases t with
    | nil => exact hne rfl
    | last _ _ => cases hmap
    | step _ _ _ => cases hmap
  · intro u hu
    have hmem : (⟨u.lo, u.hi⟩ : ByteRange) ∈ t.edges := hmap ▸ List.mem_map_of_mem hu
    exact lo_le_hi_of_mem_edges ht hmem
  · have hpairwise := pairwise_edges ht
    rw [← hmap, List.pairwise_map] at hpairwise
    exact hpairwise

theorem areApart_consume {t : ByteTrie} (ht : t.IsOrdered) (hne : t ≠ nil) (next base : Nat) :
    (consume (t.transitions next base)).isConsuming ∧
      Transition.AreApart (consume (t.transitions next base)).transitions := by
  refine ⟨isConsuming_consume _, ?_⟩
  rw [transitions_consume]
  exact areApart_transitions ht hne next base

theorem areApart_of_mem_childrenCode {t : ByteTrie} (ht : t.IsOrdered) {next base : Nat}
    {i : Instr} (hi : i ∈ t.childrenCode next base) :
    i.isConsuming ∧ Transition.AreApart i.transitions := by
  induction t generalizing base with
  | nil => cases hi
  | last r rest ih => exact ih ht.2.2 hi
  | step r child rest ihChild ihRest =>
    obtain ⟨-, -, hpaths, hchild, hrest⟩ := ht
    rw [childrenCode, List.mem_cons, List.mem_append] at hi
    rcases hi with rfl | hi | hi
    · apply areApart_consume hchild
      rintro rfl
      exact hpaths rfl
    · exact ihChild hchild hi
    · exact ihRest hrest hi

/-- Every instruction of a trie consumes a byte, by transitions that do not overlap. -/
theorem areApart_of_mem_code {t : ByteTrie} (ht : t.IsOrdered) (hne : t ≠ nil) {base next : Nat}
    {i : Instr} (hi : i ∈ t.code base next) :
    i.isConsuming ∧ Transition.AreApart i.transitions := by
  rcases List.mem_cons.mp hi with rfl | hi
  · exact areApart_consume ht hne next (base + 1)
  · exact areApart_of_mem_childrenCode ht hi

end ByteTrie

namespace Assembly

/-! ## Ways through a fragment -/

/-- The transition of an instruction with the given number. -/
def transition? (code : Array Instr) (i number : Nat) : Option Transition :=
  code[i]?.bind fun instr => instr.transitions[number]?

/-- A way leads from the instruction `i` to one of the holes, and consumes the bytes.  It is told by
its instructions and by the numbers of the transitions that it takes. -/
inductive LeadsOut (code : Array Instr) (holes : List Hole) :
    (i : Nat) → (way : List (Nat × Nat)) → (bs : List UInt8) → Prop
  | last {i number : Nat} {t : Transition} {b : UInt8} (ht : transition? code i number = some t)
      (haccepts : t.accepts b) (hhole : .edge i number ∈ holes) :
      LeadsOut code holes i [(i, number)] [b]
  | step {i number : Nat} {t : Transition} {b : UInt8} {way : List (Nat × Nat)} {bs : List UInt8}
      (ht : transition? code i number = some t) (haccepts : t.accepts b)
      (hinner : .edge i number ∉ holes) (hrest : LeadsOut code holes t.next way bs) :
      LeadsOut code holes i ((i, number) :: way) (b :: bs)

/-- A way leads to one of the holes and begins with a transition that has the given number or a
higher one. -/
def Departs (code : Array Instr) (holes : List Hole) (i number : Nat) (way : List (Nat × Nat))
    (bs : List UInt8) : Prop :=
  LeadsOut code holes i way bs ∧ ∀ edge ∈ way.head?, number ≤ edge.2

variable {code : Array Instr} {holes : List Hole} {node number base : Nat} {u : Transition}
  {way : List (Nat × Nat)} {bs : List UInt8}

theorem departs_zero_iff : Departs code holes node 0 way bs ↔ LeadsOut code holes node way bs :=
  and_iff_left fun _ _ => Nat.zero_le _

/-- Numbers of transitions have no gaps. -/
theorem transition?_eq_none_of_le {k : Nat} (hnone : transition? code node number = none)
    (hle : number ≤ k) : transition? code node k = none := by
  unfold transition? at hnone ⊢
  cases hinstr : code[node]? with
  | none => rfl
  | some instr =>
    rw [hinstr, Option.bind_some, List.getElem?_eq_none_iff] at hnone
    rw [Option.bind_some, List.getElem?_eq_none_iff]
    exact Nat.le_trans hnone hle

/-- A way begins with a transition of the instruction that it leads from. -/
theorem LeadsOut.exists_head? (hleads : LeadsOut code holes node way bs) :
    ∃ k t, way.head? = some (node, k) ∧ transition? code node k = some t := by
  cases hleads with
  | last ht _ _ => exact ⟨_, _, rfl, ht⟩
  | step ht _ _ _ => exact ⟨_, _, rfl, ht⟩

theorem not_departs (hnone : transition? code node number = none) :
    ¬ Departs code holes node number way bs := by
  rintro ⟨hleads, hfirst⟩
  obtain ⟨k, t, hk, ht⟩ := hleads.exists_head?
  rw [transition?_eq_none_of_le hnone (hfirst (node, k) hk)] at ht
  cases ht

/-- A way begins with the transition of the given number, or with a later one. -/
theorem departs_iff_or :
    Departs code holes node number way bs ↔
      (LeadsOut code holes node way bs ∧ way.head? = some (node, number)) ∨
        Departs code holes node (number + 1) way bs := by
  constructor
  · rintro ⟨hleads, hfirst⟩
    obtain ⟨k, -, hk, -⟩ := hleads.exists_head?
    have hle : number ≤ k := hfirst (node, k) hk
    rcases Nat.eq_or_lt_of_le hle with rfl | hlt
    · exact Or.inl ⟨hleads, hk⟩
    · refine Or.inr ⟨hleads, ?_⟩
      intro edge hedge
      obtain rfl := Option.some.inj (hk.symm.trans hedge)
      exact hlt
  · rintro (⟨hleads, hk⟩ | ⟨hleads, hfirst⟩)
    · refine ⟨hleads, ?_⟩
      intro edge hedge
      obtain rfl := Option.some.inj (hk.symm.trans hedge)
      exact Nat.le_refl number
    · exact ⟨hleads, fun edge hedge => Nat.le_of_succ_le (hfirst edge hedge)⟩

/-- A transition with a hole is the last one of a way. -/
theorem departs_iff_of_mem_holes (hu : transition? code node number = some u)
    (hhole : .edge node number ∈ holes) :
    Departs code holes node number way bs ↔
      (∃ b, way = [(node, number)] ∧ bs = [b] ∧ u.accepts b) ∨
        Departs code holes node (number + 1) way bs := by
  rw [departs_iff_or]
  apply or_congr_left
  constructor
  · rintro ⟨hleads, hk⟩
    cases hleads with
    | last ht haccepts _ =>
      cases hk
      cases hu.symm.trans ht
      exact ⟨_, rfl, rfl, haccepts⟩
    | step _ _ hinner _ =>
      cases hk
      exact absurd hhole hinner
  · rintro ⟨b, rfl, rfl, haccepts⟩
    exact ⟨.last hu haccepts hhole, rfl⟩

/-- A transition without a hole goes on. -/
theorem departs_iff_of_notMem_holes (hu : transition? code node number = some u)
    (hinner : .edge node number ∉ holes) :
    Departs code holes node number way bs ↔
      (∃ b way' bs', way = (node, number) :: way' ∧ bs = b :: bs' ∧ u.accepts b ∧
        LeadsOut code holes u.next way' bs') ∨ Departs code holes node (number + 1) way bs := by
  rw [departs_iff_or]
  apply or_congr_left
  constructor
  · rintro ⟨hleads, hk⟩
    cases hleads with
    | last _ _ hhole =>
      cases hk
      exact absurd hhole hinner
    | step ht haccepts _ hrest =>
      cases hk
      cases hu.symm.trans ht
      exact ⟨_, _, _, rfl, rfl, haccepts, hrest⟩
  · rintro ⟨b, way', bs', rfl, rfl, haccepts, hrest⟩
    exact ⟨.step hu haccepts hinner hrest, rfl⟩

end Assembly

/-! ## Ways along a trie -/

namespace ByteTrie

open Assembly

/-- The edges of a node, from the one with the given number on, stand in the code with the nodes
below, and just those that complete a character have holes. -/
def Stands (code : Array Instr) (holes : List Hole) :
    ByteTrie → (node number base : Nat) → Prop
  | nil, node, number, _ => transition? code node number = none
  | last r rest, node, number, base =>
    transition? code node number = some ⟨r.lo, r.hi, pending⟩ ∧ .edge node number ∈ holes ∧
      rest.Stands code holes node (number + 1) base
  | step r child rest, node, number, base =>
    transition? code node number = some ⟨r.lo, r.hi, base⟩ ∧ .edge node number ∉ holes ∧
      child.Stands code holes base 0 (base + 1) ∧
      rest.Stands code holes node (number + 1) (base + child.size)

variable {code : Array Instr} {holes : List Hole} {node number base next : Nat}
  {way : List (Nat × Nat)} {bs : List UInt8}

theorem forall₂_contains_cons_iff {r : ByteRange} {rs : List ByteRange} :
    List.Forall₂ ByteRange.Contains (r :: rs) bs ↔
      ∃ b bs', bs = b :: bs' ∧ r.Contains b ∧ List.Forall₂ ByteRange.Contains rs bs' := by
  rw [List.forall₂_cons_left_iff]
  constructor
  · rintro ⟨b, bs', hcontains, hrest, rfl⟩
    exact ⟨b, bs', rfl, hcontains, hrest⟩
  · rintro ⟨b, bs', rfl, hcontains, hrest⟩
    exact ⟨b, bs', hcontains, hrest, rfl⟩

/-- A way leads out on the byte strings that fit a path of the trie. -/
theorem exists_departs_iff {t : ByteTrie} (hstands : t.Stands code holes node number base) :
    (∃ way, Departs code holes node number way bs) ↔
      ∃ rs ∈ t.paths, List.Forall₂ ByteRange.Contains rs bs := by
  induction t generalizing node number base bs with
  | nil => simp [paths, not_departs hstands]
  | last r rest ih =>
    obtain ⟨hedge, hhole, hrest⟩ := hstands
    simp only [departs_iff_of_mem_holes hedge hhole, exists_or, ih hrest, paths,
      List.exists_mem_cons_iff, forall₂_contains_cons_iff]
    apply or_congr_left
    constructor
    · rintro ⟨way, b, -, rfl, haccepts⟩
      exact ⟨b, [], rfl, Transition.accepts_iff.mp haccepts, .nil⟩
    · rintro ⟨b, bs', rfl, hcontains, hnil⟩
      cases hnil
      exact ⟨_, b, rfl, rfl, Transition.accepts_iff.mpr hcontains⟩
  | step r child rest ihChild ihRest =>
    obtain ⟨hedge, hinner, hchild, hrest⟩ := hstands
    simp only [departs_iff_of_notMem_holes hedge hinner, exists_or, ihRest hrest, paths,
      List.mem_append, or_and_right, List.mem_map, exists_exists_and_eq_and,
      forall₂_contains_cons_iff]
    apply or_congr_left
    constructor
    · rintro ⟨way, b, way', bs', -, rfl, haccepts, hleads⟩
      obtain ⟨rs, hrs, hbytes⟩ := (ihChild hchild).mp ⟨way', departs_zero_iff.mpr hleads⟩
      exact ⟨rs, hrs, b, bs', rfl, Transition.accepts_iff.mp haccepts, hbytes⟩
    · rintro ⟨rs, hrs, b, bs', rfl, hcontains, hbytes⟩
      obtain ⟨way', hdeparts⟩ := (ihChild hchild).mpr ⟨rs, hrs, hbytes⟩
      exact ⟨_, b, way', bs', rfl, rfl, Transition.accepts_iff.mpr hcontains,
        departs_zero_iff.mp hdeparts⟩

/-- No way begins with an edge behind a range that contains the byte. -/
theorem not_departs_of_accepts {r : ByteRange} {rest : ByteTrie} {b : UInt8}
    (hstands : rest.Stands code holes node number base) (hedges : ∀ s ∈ rest.edges, r.hi < s.lo)
    (haccepts : Transition.accepts ⟨r.lo, r.hi, next⟩ b) :
    ¬ Departs code holes node number way (b :: bs) := by
  intro hdeparts
  obtain ⟨rs, hrs, hbytes⟩ := (exists_departs_iff hstands).mp ⟨way, hdeparts⟩
  obtain ⟨s, hs, ss, rfl⟩ := exists_cons_of_mem_paths hrs
  obtain ⟨_, _, ⟨⟩, hcontains, -⟩ := forall₂_contains_cons_iff.mp hbytes
  have hlt := UInt8.lt_of_lt_of_le (hedges s hs) hcontains.1
  exact UInt8.lt_irrefl b (UInt8.lt_of_le_of_lt (Transition.accepts_iff.mp haccepts).2 hlt)

/-- Where edges ascend, there is one way at most for a byte string. -/
theorem eq_of_departs {t : ByteTrie} (ht : t.IsOrdered)
    (hstands : t.Stands code holes node number base) {way' : List (Nat × Nat)}
    (hway : Departs code holes node number way bs)
    (hway' : Departs code holes node number way' bs) : way = way' := by
  induction t generalizing node number base way way' bs with
  | nil => exact absurd hway (not_departs hstands)
  | last r rest ih =>
    obtain ⟨-, hedges, hordered⟩ := ht
    obtain ⟨hedge, hhole, hrest⟩ := hstands
    rw [departs_iff_of_mem_holes hedge hhole] at hway hway'
    rcases hway with ⟨b, rfl, rfl, haccepts⟩ | hway
    · rcases hway' with ⟨_, rfl, -, -⟩ | hway'
      · rfl
      · exact absurd hway' (not_departs_of_accepts hrest hedges haccepts)
    · rcases hway' with ⟨b, rfl, rfl, haccepts⟩ | hway'
      · exact absurd hway (not_departs_of_accepts hrest hedges haccepts)
      · exact ih hordered hrest hway hway'
  | step r child rest ihChild ihRest =>
    obtain ⟨-, hedges, -, hchildOrdered, hrestOrdered⟩ := ht
    obtain ⟨hedge, hinner, hchild, hrest⟩ := hstands
    rw [departs_iff_of_notMem_holes hedge hinner] at hway hway'
    rcases hway with ⟨b, inside, bs', rfl, rfl, haccepts, hleads⟩ | hway
    · rcases hway' with ⟨_, inside', _, rfl, ⟨⟩, -, hleads'⟩ | hway'
      · have hinside := ihChild hchildOrdered hchild (departs_zero_iff.mpr hleads)
          (departs_zero_iff.mpr hleads')
        rw [hinside]
      · exact absurd hway' (not_departs_of_accepts hrest hedges haccepts)
    · rcases hway' with ⟨b, _, bs', rfl, rfl, haccepts, -⟩ | hway'
      · exact absurd hway (not_departs_of_accepts hrest hedges haccepts)
      · exact ihRest hrestOrdered hrest hway hway'

/-! ## The instructions of a trie -/

theorem mem_holes {t : ByteTrie} {i k : Nat} (hhole : .edge i k ∈ t.holes node number base) :
    i = node ∧ number ≤ k ∨ base ≤ i ∧ i < base + t.inner := by
  induction t generalizing node number base with
  | nil => cases hhole
  | last r rest ih =>
    rcases List.mem_cons.mp hhole with heq | hhole
    · obtain ⟨rfl, rfl⟩ := Hole.edge.inj heq
      exact Or.inl ⟨rfl, Nat.le_refl _⟩
    · exact (ih hhole).imp_left fun h => ⟨h.1, Nat.le_of_succ_le h.2⟩
  | step r child rest ihChild ihRest =>
    rw [inner]
    rcases List.mem_append.mp hhole with hhole | hhole
    · have := ihChild hhole
      omega
    · have := ihRest hhole
      rw [size] at this
      omega

/-- Of the edges from the given one on and those of the nodes below, the ones that complete a
character have holes. -/
def HasHoles (holes : List Hole) (t : ByteTrie) (node number base : Nat) : Prop :=
  ∀ i k, i = node ∧ number ≤ k ∨ base ≤ i ∧ i < base + t.inner →
    (.edge i k ∈ holes ↔ .edge i k ∈ t.holes node number base)

namespace HasHoles

variable {r : ByteRange} {child rest : ByteTrie}

theorem of_last (h : HasHoles holes (last r rest) node number base) (hlt : node < base) :
    .edge node number ∈ holes ∧ HasHoles holes rest node (number + 1) base := by
  constructor
  · exact (h node number (Or.inl ⟨rfl, Nat.le_refl _⟩)).mpr List.mem_cons_self
  · intro i k hik
    have hhole := h i k (by rw [inner]; omega)
    rw [hhole, ByteTrie.holes, List.mem_cons, or_iff_right]
    intro heq
    obtain ⟨rfl, rfl⟩ := Hole.edge.inj heq
    omega

theorem of_step (h : HasHoles holes (step r child rest) node number base) (hlt : node < base) :
    .edge node number ∉ holes ∧ HasHoles holes child base 0 (base + 1) ∧
      HasHoles holes rest node (number + 1) (base + child.size) := by
  have hinner : (step r child rest).inner = 1 + child.inner + rest.inner := rfl
  have hsize : child.size = 1 + child.inner := rfl
  have hsplit : ∀ i k, .edge i k ∈ (step r child rest).holes node number base ↔
      .edge i k ∈ child.holes base 0 (base + 1) ∨
        .edge i k ∈ rest.holes node (number + 1) (base + child.size) :=
    fun _ _ => List.mem_append
  refine ⟨?_, ?_, ?_⟩
  · rw [h node number (Or.inl ⟨rfl, Nat.le_refl _⟩), hsplit]
    rintro (hhole | hhole)
    · have := mem_holes hhole
      omega
    · have := mem_holes hhole
      omega
  · intro i k hik
    rw [h i k (by omega), hsplit, or_iff_left]
    intro hhole
    have := mem_holes hhole
    omega
  · intro i k hik
    rw [h i k (by omega), hsplit, or_iff_right]
    intro hhole
    have := mem_holes hhole
    omega

end HasHoles

/-- The instruction of a node has the transitions of its edges. -/
theorem transition?_append_cons (before after : List Instr) (ts : List Transition) (number : Nat) :
    transition? (before ++ consume ts :: after).toArray before.length number = ts[number]? := by
  rw [transition?, List.getElem?_toArray, List.getElem?_append_right (Nat.le_refl _), Nat.sub_self,
    List.getElem?_cons_zero, Option.bind_some, transitions_consume]

theorem transition?_front (before after : List Instr) (front ts : List Transition)
    (hbefore : before.length = node) (hfront : front.length = number) :
    transition? (before ++ consume (front ++ ts) :: after).toArray node number = ts[0]? := by
  rw [← hbefore, transition?_append_cons, ← hfront, List.getElem?_append_right (Nat.le_refl _),
    Nat.sub_self]

/-- The edges of a trie stand where its instructions do. -/
theorem stands_append {t : ByteTrie} (before between after : List Instr) (front : List Transition)
    (hholes : HasHoles holes t node number base) (hbefore : before.length = node)
    (hfront : front.length = number) (hbase : node + (between.length + 1) = base) :
    t.Stands (before ++ consume (front ++ t.transitions pending base) ::
      (between ++ (t.childrenCode pending base ++ after))).toArray holes node number base := by
  have hlt : node < base := by omega
  induction t generalizing before between after front node number base with
  | nil => exact transition?_front before _ front [] hbefore hfront
  | last r rest ih =>
    obtain ⟨hhole, hholes⟩ := hholes.of_last hlt
    have hrest := ih before between after (front ++ [⟨r.lo, r.hi, pending⟩]) hholes hbefore
      (by rw [List.length_append, hfront, List.length_singleton]) hbase hlt
    rw [List.append_assoc] at hrest
    exact ⟨transition?_front before _ front _ hbefore hfront, hhole, hrest⟩
  | step r child rest ihChild ihRest =>
    obtain ⟨hinner, hchildHoles, hrestHoles⟩ := hholes.of_step hlt
    have hchild := ihChild (before ++ consume (front ++ ⟨r.lo, r.hi, base⟩ ::
      rest.transitions pending (base + child.size)) :: between) []
      (rest.childrenCode pending (base + child.size) ++ after) [] hchildHoles
      (by rw [List.length_append, List.length_cons, hbefore, hbase]) rfl rfl (Nat.lt_succ_self base)
    have hrest := ihRest before (between ++ child.code base pending) after
      (front ++ [⟨r.lo, r.hi, base⟩]) hrestHoles hbefore
      (by rw [List.length_append, hfront, List.length_singleton])
      (by rw [List.length_append, child.length_code, ← hbase]; omega) (by omega)
    simp only [code, List.append_assoc, List.cons_append, List.nil_append] at hchild hrest
    refine ⟨transition?_front before _ front _ hbefore hfront, hinner, ?_, ?_⟩
    · simp only [transitions, childrenCode, List.append_assoc, List.cons_append]
      exact hchild
    · simp only [transitions, childrenCode, List.append_assoc, List.cons_append]
      exact hrest

/-- The holes of a trie are transitions without a target. -/
theorem pending_of_mem_holes {t : ByteTrie} (hstands : t.Stands code holes node number base)
    {hole : Hole} (hhole : hole ∈ t.holes node number base) :
    ∃ i k u, hole = .edge i k ∧ transition? code i k = some u ∧ u.next = pending := by
  induction t generalizing node number base with
  | nil => cases hhole
  | last r rest ih =>
    obtain ⟨hedge, -, hrest⟩ := hstands
    rcases List.mem_cons.mp hhole with rfl | hhole
    · exact ⟨node, number, _, rfl, hedge, rfl⟩
    · exact ih hrest hhole
  | step r child rest ihChild ihRest =>
    obtain ⟨-, -, hchild, hrest⟩ := hstands
    rcases List.mem_append.mp hhole with hhole | hhole
    · exact ihChild hchild hhole
    · exact ihRest hrest hhole

end ByteTrie

/-! ## Encodings -/

theorem ByteRange.fitsAt_iff {h : ByteArray} {pos : Nat} {rs : List ByteRange} :
    FitsAt h pos rs ↔ ∃ bs, bytesAt h pos bs ∧ List.Forall₂ Contains rs bs := by
  induction rs generalizing pos with
  | nil => simp [FitsAt, LiteralPrefix.bytesAt]
  | cons r rs ih =>
    rw [FitsAt, ih]
    constructor
    · rintro ⟨⟨b, hb, hcontains⟩, bs, hat, hbytes⟩
      exact ⟨b :: bs, by simp [LiteralPrefix.bytesAt, hb, hat], .cons hcontains hbytes⟩
    · rintro ⟨_ | ⟨b, bs⟩, hat, hbytes⟩
      · cases hbytes
      · rw [LiteralPrefix.bytesAt, Bool.and_eq_true, beq_iff_eq] at hat
        cases hbytes with
        | cons hcontains hbytes => exact ⟨⟨b, hat.1, hcontains⟩, bs, hat.2, hbytes⟩

theorem LiteralPrefix.eq_of_bytesAt {h : ByteArray} {pos : Nat} {xs ys : List UInt8}
    (hxs : bytesAt h pos xs) (hys : bytesAt h pos ys) (hlength : xs.length = ys.length) :
    xs = ys := by
  induction xs generalizing pos ys with
  | nil => exact (List.length_eq_zero_iff.mp hlength.symm).symm
  | cons x xs ih =>
    cases ys with
    | nil => cases hlength
    | cons y ys =>
      rw [bytesAt, Bool.and_eq_true, beq_iff_eq] at hxs hys
      rw [Option.some.inj (hxs.1.symm.trans hys.1), ih hxs.2 hys.2 (Nat.succ.inj hlength)]

theorem LiteralPrefix.bytesAt_self (bs : List UInt8) : bytesAt bs.toByteArray 0 bs := by
  rw [bytesAt_iff_extract]
  refine ⟨Nat.zero_le _, ByteArray.empty, ?_⟩
  rw [ByteArray.extract_zero_size, ByteArray.append_empty]

theorem Utf8.encode_inj {c d : Char} (heq : encode c = encode d) : c = d := by
  have hc := decodeAt?_eq_some_iff.mpr (LiteralPrefix.bytesAt_self (encode c))
  have hd := decodeAt?_eq_some_iff.mpr (LiteralPrefix.bytesAt_self (encode d))
  rw [← heq, hc] at hd
  exact Option.some.inj hd

/-- The bytes that fit a sequence of a set are the encodings of its characters. -/
theorem CharSet.exists_contains_sequences_iff (s : CharSet) (bs : List UInt8) :
    (∃ rs ∈ s.sequences, List.Forall₂ ByteRange.Contains rs bs) ↔
      ∃ c, s.contains c ∧ Utf8.encode c = bs := by
  have hself := LiteralPrefix.bytesAt_self bs
  constructor
  · rintro ⟨rs, hrs, hbytes⟩
    have hfits : FitsAt bs.toByteArray 0 rs := ByteRange.fitsAt_iff.mpr ⟨bs, hself, hbytes⟩
    obtain ⟨c, hc, hat, hlength⟩ := (s.fitsAt_sequences _ 0 rs.length).mp ⟨rs, hrs, hfits, rfl⟩
    exact ⟨c, hc, LiteralPrefix.eq_of_bytesAt hat hself (hlength.trans hbytes.length_eq)⟩
  · rintro ⟨c, hc, rfl⟩
    obtain ⟨rs, hrs, hfits, hlength⟩ :=
      (s.fitsAt_sequences _ 0 (Utf8.encode c).length).mpr ⟨c, hc, hself, rfl⟩
    obtain ⟨bs, hat, hbytes⟩ := ByteRange.fitsAt_iff.mp hfits
    have hbs := LiteralPrefix.eq_of_bytesAt hat hself (hbytes.length_eq.symm.trans hlength)
    exact ⟨rs, hrs, hbs ▸ hbytes⟩

/-! ## The fragment of a set -/

namespace Assembly

/-- What has been added to `code` reads the encodings of the characters of a set. -/
structure IsExactFor (s : CharSet) (code : List Instr) (added : Fragment × Array Instr) :
    Prop where
  /-- The fragment is left on the encoding of exactly one character of the set, and on nothing
  else. -/
  exact : ∀ bs, (∃ way, LeadsOut added.2 added.1.holes added.1.start way bs) ↔
    ∃! c, s.contains c ∧ Utf8.encode c = bs
  /-- There is one way only. -/
  unique : ∀ way way' bs, LeadsOut added.2 added.1.holes added.1.start way bs →
    LeadsOut added.2 added.1.holes added.1.start way' bs → way = way'
  /-- A hole is a transition that has been added without a target. -/
  holes : ∀ hole ∈ added.1.holes, ∃ i number t, hole = .edge i number ∧ code.length ≤ i ∧
    transition? added.2 i number = some t ∧ t.next = pending
  consuming : ∀ i instr, code.length ≤ i → added.2[i]? = some instr →
    instr.isConsuming ∧ Transition.AreApart instr.transitions
  /-- An instruction that has been added goes on where a transition of it accepts the byte. -/
  next : ∀ i instr, code.length ≤ i → added.2[i]? = some instr →
    ∀ b next, instr.next? b = some next ↔ ∃ t ∈ instr.transitions, t.accepts b ∧ t.next = next

/-- The trie of a set has an edge if the set has a character. -/
theorem ofSet_ne_nil {s : CharSet} (hs : s.IsAscending) (hne : s.ranges ≠ []) :
    ByteTrie.ofSet s ≠ .nil := by
  intro hnil
  obtain ⟨r, hr⟩ := List.exists_mem_of_ne_nil _ hne
  have hcontains : s.contains r.lo :=
    CharSet.contains_iff.mpr ⟨r, hr, CharRange.contains_iff.mpr ⟨Nat.le_refl _, r.toNat_lo_le⟩⟩
  obtain ⟨rs, hrs, -⟩ := (s.exists_contains_sequences_iff _).mpr ⟨r.lo, hcontains, rfl⟩
  rw [← (ByteTrie.ofSet_spec hs).2, hnil] at hrs
  cases hrs

/-- The trie of a set leads out on the encodings of its characters. -/
theorem exists_leadsOut_iff {s : CharSet} (hs : s.IsAscending) {array : Array Instr}
    {holes : List Hole} {node base : Nat}
    (hstands : (ByteTrie.ofSet s).Stands array holes node 0 base) (bs : List UInt8) :
    (∃ way, LeadsOut array holes node way bs) ↔ ∃! c, s.contains c ∧ Utf8.encode c = bs := by
  simp only [← departs_zero_iff]
  rw [ByteTrie.exists_departs_iff hstands, (ByteTrie.ofSet_spec hs).2,
    s.exists_contains_sequences_iff]
  constructor
  · rintro ⟨c, hc, hencode⟩
    refine ⟨c, ⟨hc, hencode⟩, ?_⟩
    rintro d ⟨-, hd⟩
    exact Utf8.encode_inj (hd.trans hencode.symm)
  · rintro ⟨c, hc, -⟩
    exact ⟨c, hc⟩

/-- The instructions of the trie of a set are an automaton for it. -/
theorem isExactFor_trie {s : CharSet} (hs : s.IsAscending) (hne : s.ranges ≠ [])
    (code : List Instr) :
    IsExactFor s code (⟨code.length, (ByteTrie.ofSet s).holes code.length 0 (code.length + 1)⟩,
      (code ++ (ByteTrie.ofSet s).code code.length pending).toArray) := by
  have hordered := (ByteTrie.ofSet_spec hs).1
  have hholes : ByteTrie.HasHoles ((ByteTrie.ofSet s).holes code.length 0 (code.length + 1))
      (ByteTrie.ofSet s) code.length 0 (code.length + 1) := fun _ _ _ => Iff.rfl
  have hstands := ByteTrie.stands_append code [] [] [] hholes rfl rfl rfl
  rw [List.append_nil] at hstands
  have hapart : ∀ i instr, code.length ≤ i →
      (code ++ (ByteTrie.ofSet s).code code.length pending).toArray[i]? = some instr →
      instr.isConsuming ∧ Transition.AreApart instr.transitions := by
    intro i instr hle hinstr
    rw [List.getElem?_toArray, List.getElem?_append_right hle] at hinstr
    exact ByteTrie.areApart_of_mem_code hordered (ofSet_ne_nil hs hne) (List.mem_of_getElem? hinstr)
  constructor
  case exact => exact exists_leadsOut_iff hs hstands
  case unique =>
    intro way way' bs hway hway'
    exact ByteTrie.eq_of_departs hordered hstands (departs_zero_iff.mpr hway)
      (departs_zero_iff.mpr hway')
  case holes =>
    intro hole hhole
    obtain ⟨i, k, u, rfl, hu, hnext⟩ := ByteTrie.pending_of_mem_holes hstands hhole
    have hbounds := ByteTrie.mem_holes hhole
    exact ⟨i, k, u, rfl, by omega, hu, hnext⟩
  case consuming => exact hapart
  case next =>
    intro i instr hle hinstr b next
    exact Instr.next?_eq_some_iff (hapart i instr hle hinstr).2

/-- A set of characters that is not empty becomes an automaton that reads the encodings of its
characters, each along one way, and nothing else. -/
theorem emitExpr_ofSet_isExact {s : CharSet} (hs : s.IsAscending) (hne : s.ranges ≠ [])
    (limit : Nat) (code : List Instr) :
    Gated limit (code.length + (ByteExpr.ofSet s).size)
      (emitExpr limit (.ofSet s) code.toArray) (IsExactFor s code) := by
  have hofSet : ByteExpr.ofSet s = .char (ByteTrie.ofSet s) :=
    if_neg (mt List.isEmpty_iff.mp hne)
  rw [hofSet]
  refine (gated_emitTrie limit (ByteTrie.ofSet s) code).imp ?_
  rintro _ rfl
  exact isExactFor_trie hs hne code

/-- The small Latin and Greek letters. -/
def letters : CharSet :=
  ⟨[⟨'a', 'z', by decide⟩, ⟨'α', 'ω', by decide⟩]⟩

/-- The letters need three instructions. -/
theorem emitExpr_letters_isExact :
    letters.IsAscending ∧ letters.ranges ≠ [] ∧
      ∃ added, emitExpr 3 (.ofSet letters) #[] = .ok added ∧ IsExactFor letters [] added := by
  have hascending : letters.IsAscending := by
    simp [letters, CharSet.IsAscending, CharRange.IsBelow]
  have hne : letters.ranges ≠ [] := List.cons_ne_nil _ _
  have hsize : (ByteExpr.ofSet letters).size = 3 := by decide +kernel
  have hgated := emitExpr_ofSet_isExact hascending hne 3 []
  exact ⟨hascending, hne, hgated.fits (Nat.le_of_eq ((Nat.zero_add _).trans hsize))⟩

end Assembly
end LinearRegex
