import LinearRegex.Proofs.CharSet.Encoding
import LinearRegex.Proofs.Program.Placed

/-!
# What a trie matches

A trie is made by adding the sequences of a set one behind the other, and each node has its edges in
ascending order (`ByteTrie.IsOrdered`).  So a walk that takes the first edge for a byte finds the
characters of the set and nothing else (`walk?_ofSet`), and the instructions of the trie do as the
walk does (`passes_code`).
-/

namespace LinearRegex
namespace ByteTrie

open ByteRange (FitsAt IsBefore)
open LiteralPrefix (bytesAt)

/-- The ranges of the edges of a node. -/
def edges : ByteTrie → List ByteRange
  | nil => []
  | last r rest => r :: rest.edges
  | step r _ rest => r :: rest.edges

/-- The sequences that a trie has been made of. -/
def paths : ByteTrie → List (List ByteRange)
  | nil => []
  | last r rest => [r] :: rest.paths
  | step r child rest => child.paths.map (r :: ·) ++ rest.paths

/-- The edges of every node ascend, and every edge leads somewhere. -/
def IsOrdered : ByteTrie → Prop
  | nil => True
  | last r rest => r.lo ≤ r.hi ∧ (∀ s ∈ rest.edges, r.hi < s.lo) ∧ rest.IsOrdered
  | step r child rest =>
    r.lo ≤ r.hi ∧ (∀ s ∈ rest.edges, r.hi < s.lo) ∧ child.paths ≠ [] ∧ child.IsOrdered ∧
      rest.IsOrdered

/-- Where a walk along the edges ends that begins at `pos`. -/
def walk? (h : ByteArray) : ByteTrie → (pos : Nat) → Option Nat
  | nil, _ => none
  | last r rest, pos =>
    match h[pos]? with
    | some b =>
      if b < r.lo then none else if b ≤ r.hi then some (pos + 1) else rest.walk? h pos
    | none => none
  | step r child rest, pos =>
    match h[pos]? with
    | some b =>
      if b < r.lo then none else if b ≤ r.hi then child.walk? h (pos + 1) else rest.walk? h pos
    | none => none

theorem exists_cons_of_mem_paths {t : ByteTrie} {rs : List ByteRange} (hrs : rs ∈ t.paths) :
    ∃ s ∈ t.edges, ∃ ss, rs = s :: ss := by
  induction t with
  | nil => cases hrs
  | last r rest ih =>
    rcases List.mem_cons.mp hrs with rfl | hrs
    · exact ⟨r, List.mem_cons_self, [], rfl⟩
    · obtain ⟨s, hs, hcons⟩ := ih hrs
      exact ⟨s, List.mem_cons_of_mem r hs, hcons⟩
  | step r child rest _ ih =>
    rcases List.mem_append.mp hrs with hrs | hrs
    · obtain ⟨ss, -, rfl⟩ := List.mem_map.mp hrs
      exact ⟨r, List.mem_cons_self, ss, rfl⟩
    · obtain ⟨s, hs, hcons⟩ := ih hrs
      exact ⟨s, List.mem_cons_of_mem r hs, hcons⟩

/-! ## Adding sequences -/

theorem paths_path {seq : List ByteRange} (hseq : seq ≠ []) : (path seq).paths = [seq] := by
  fun_induction path seq with
  | case1 => exact absurd rfl hseq
  | case2 r => rfl
  | case3 r s more ih => simp [paths, ih (List.cons_ne_nil s more)]

theorem edges_path (seq : List ByteRange) : ∀ s ∈ (path seq).edges, seq.head? = some s := by
  fun_cases path seq with
  | case1 => simp [edges]
  | case2 r => simp [edges]
  | case3 r s more => simp [edges]

theorem isOrdered_path {seq : List ByteRange} (hseq : ∀ r ∈ seq, r.lo ≤ r.hi) :
    (path seq).IsOrdered := by
  fun_induction path seq with
  | case1 => trivial
  | case2 r => exact ⟨hseq r List.mem_cons_self, by simp [edges], trivial⟩
  | case3 r s more ih =>
    refine ⟨hseq r List.mem_cons_self, by simp [edges], ?_, ?_, trivial⟩
    · rw [paths_path (List.cons_ne_nil s more)]
      exact List.cons_ne_nil _ _
    · exact ih fun q hq => hseq q (List.mem_cons_of_mem r hq)

/-- A sequence comes behind those that are there already. -/
theorem paths_insert (t : ByteTrie) {seq : List ByteRange} (hseq : seq ≠ []) :
    (t.insert seq).paths = t.paths ++ [seq] := by
  fun_induction insert seq t with
  | case1 seq => exact paths_path hseq
  | case2 seq r rest ih => simp [paths, ih hseq]
  | case3 child s next more ih => simp [paths, ih (List.cons_ne_nil next more)]
  | case4 r child s next more hne => simp [paths, paths_path hseq]
  | case5 seq r child hshort => simp [paths, paths_path hseq]
  | case6 seq r child rest hrest ih => simp [paths, ih hseq]

theorem mem_edges_insert {t : ByteTrie} {seq : List ByteRange} {s : ByteRange}
    (hs : s ∈ (t.insert seq).edges) : s ∈ t.edges ∨ seq.head? = some s := by
  fun_induction insert seq t with
  | case1 seq => exact Or.inr (edges_path seq s hs)
  | case2 seq r rest ih =>
    rcases List.mem_cons.mp hs with rfl | hs
    · exact Or.inl List.mem_cons_self
    · exact (ih hs).imp_left (List.mem_cons_of_mem r)
  | case3 child r next more ih => exact Or.inl hs
  | case4 r child s' next more hne =>
    rcases List.mem_cons.mp hs with rfl | hs
    · exact Or.inl List.mem_cons_self
    · exact Or.inr (edges_path _ s hs)
  | case5 seq r child hshort =>
    rcases List.mem_cons.mp hs with rfl | hs
    · exact Or.inl List.mem_cons_self
    · exact Or.inr (edges_path _ s hs)
  | case6 seq r child rest hrest ih =>
    rcases List.mem_cons.mp hs with rfl | hs
    · exact Or.inl List.mem_cons_self
    · exact (ih hs).imp_left (List.mem_cons_of_mem r)

/-- A range in front of a sequence that is before another one: either the other begins with a
greater range, or with the same one. -/
theorem isBefore_cons {r : ByteRange} {rs seq : List ByteRange} (h : IsBefore (r :: rs) seq) :
    (∃ s ss, seq = s :: ss ∧ r.hi < s.lo) ∨ ∃ ss, seq = r :: ss ∧ IsBefore rs ss := by
  cases h with
  | head hlt => exact Or.inl ⟨_, _, rfl, hlt⟩
  | tail h => exact Or.inr ⟨_, rfl, h⟩

theorem paths_ne_nil {t : ByteTrie} (ht : t.IsOrdered) (hne : t ≠ nil) : t.paths ≠ [] := by
  cases t with
  | nil => exact absurd rfl hne
  | last r rest => exact List.cons_ne_nil _ _
  | step r child rest =>
    have hchild : child.paths.map (r :: ·) ≠ [] := mt List.map_eq_nil_iff.mp ht.2.2.1
    exact List.append_ne_nil_of_left_ne_nil hchild _

theorem lo_le_hi_of_mem_edges {t : ByteTrie} (ht : t.IsOrdered) {s : ByteRange}
    (hs : s ∈ t.edges) : s.lo ≤ s.hi := by
  induction t with
  | nil => cases hs
  | last r rest ih =>
    rcases List.mem_cons.mp hs with rfl | hs
    · exact ht.1
    · exact ih ht.2.2 hs
  | step r child rest _ ih =>
    rcases List.mem_cons.mp hs with rfl | hs
    · exact ht.1
    · exact ih ht.2.2.2.2 hs

/-- A sequence goes behind the last edge of a node unless it begins with its range. -/
theorem isOrdered_step_insert {r : ByteRange} {child rest : ByteTrie} {seq : List ByteRange}
    (ht : (step r child rest).IsOrdered)
    (hbefore : ∀ rs ∈ (step r child rest).paths, IsBefore rs seq)
    (hshared : ∀ rs ss, seq = r :: ss → ¬ IsBefore rs ss) (hrest : (rest.insert seq).IsOrdered) :
    (step r child (rest.insert seq)).IsOrdered := by
  obtain ⟨hr, hedges, hchild, hordered, -⟩ := ht
  refine ⟨hr, fun s hs => ?_, hchild, hordered, hrest⟩
  rcases mem_edges_insert hs with hs | hs
  · exact hedges s hs
  · obtain ⟨rs, hrs⟩ := List.exists_mem_of_ne_nil _ hchild
    have hmem : r :: rs ∈ (step r child rest).paths :=
      List.mem_append_left _ (List.mem_map_of_mem hrs)
    rcases isBefore_cons (hbefore _ hmem) with ⟨s', ss, rfl, hlt⟩ | ⟨ss, heq, h⟩
    · cases hs
      exact hlt
    · exact absurd h (hshared rs ss heq)

/-- A sequence behind all others keeps the edges in order. -/
theorem isOrdered_insert {t : ByteTrie} {seq : List ByteRange} (ht : t.IsOrdered)
    (hranges : ∀ r ∈ seq, r.lo ≤ r.hi) (hbefore : ∀ rs ∈ t.paths, IsBefore rs seq) :
    (t.insert seq).IsOrdered := by
  fun_induction insert seq t with
  | case1 seq => exact isOrdered_path hranges
  | case2 seq r rest ih =>
    obtain ⟨hr, hedges, hrest⟩ := ht
    refine ⟨hr, fun s hs => ?_,
      ih hrest hranges fun rs hrs => hbefore rs (List.mem_cons_of_mem _ hrs)⟩
    rcases mem_edges_insert hs with hs | hs
    · exact hedges s hs
    · rcases isBefore_cons (hbefore [r] List.mem_cons_self) with ⟨s', ss, rfl, hlt⟩ | ⟨ss, -, h⟩
      · cases hs
        exact hlt
      · cases h
  | case3 child s next more ih =>
    obtain ⟨hr, hedges, hchild, hordered, hrest⟩ := ht
    refine ⟨hr, hedges, ?_, ?_, hrest⟩
    · rw [paths_insert child (List.cons_ne_nil next more)]
      exact List.append_ne_nil_of_right_ne_nil _ (List.cons_ne_nil _ _)
    · refine ih hordered (fun r hr => hranges r (List.mem_cons_of_mem s hr)) fun rs hrs => ?_
      have hmem : s :: rs ∈ (step s child nil).paths :=
        List.mem_append_left _ (List.mem_map_of_mem hrs)
      rcases isBefore_cons (hbefore _ hmem) with ⟨s', ss, heq, hlt⟩ | ⟨ss, heq, h⟩
      · cases heq
        exact absurd (UInt8.lt_of_lt_of_le hlt hr) (UInt8.lt_irrefl _)
      · cases heq
        exact h
  | case4 r child s next more hne =>
    refine isOrdered_step_insert ht hbefore (fun rs ss heq _ => ?_) (isOrdered_path hranges)
    cases heq
    exact hne rfl
  | case5 seq r child hshort =>
    refine isOrdered_step_insert ht hbefore (fun rs ss heq h => ?_) (isOrdered_path hranges)
    cases h with
    | head _ => exact hshort _ _ _ heq
    | tail _ => exact hshort _ _ _ heq
  | case6 seq r child rest hnil ih =>
    have hrest : ∀ rs ∈ rest.paths, IsBefore rs seq :=
      fun rs hrs => hbefore rs (List.mem_append_right _ hrs)
    refine isOrdered_step_insert ht hbefore (fun rs ss heq _ => ?_)
      (ih ht.2.2.2.2 hranges hrest)
    -- The other edges of the node come after `r`, and the sequence comes after them.
    obtain ⟨qs, hqs⟩ := List.exists_mem_of_ne_nil _ (paths_ne_nil ht.2.2.2.2 hnil)
    obtain ⟨q, hq, qs', rfl⟩ := exists_cons_of_mem_paths hqs
    have hqle := lo_le_hi_of_mem_edges ht.2.2.2.2 hq
    have hrq := ht.2.1 q hq
    have hrle := ht.1
    rcases isBefore_cons (hrest _ hqs) with ⟨s', ss', heq', hlt⟩ | ⟨ss', heq', -⟩
    · obtain rfl := (List.cons.inj (heq.symm.trans heq')).1
      simp only [UInt8.lt_iff_toNat_lt, UInt8.le_iff_toNat_le] at hqle hrq hrle hlt
      omega
    · obtain rfl := (List.cons.inj (heq.symm.trans heq')).1
      simp only [UInt8.lt_iff_toNat_lt, UInt8.le_iff_toNat_le] at hrq hrle
      omega

theorem ofSet_spec {s : CharSet} (hs : s.IsAscending) :
    (ofSet s).IsOrdered ∧ (ofSet s).paths = s.sequences := by
  have hfold : ∀ (seqs : List (List ByteRange)) (t : ByteTrie), t.IsOrdered →
      (t.paths ++ seqs).Pairwise IsBefore →
      (∀ seq ∈ seqs, seq ≠ [] ∧ ∀ r ∈ seq, r.lo ≤ r.hi) →
      (seqs.foldl (fun t seq => t.insert seq) t).IsOrdered ∧
        (seqs.foldl (fun t seq => t.insert seq) t).paths = t.paths ++ seqs := by
    intro seqs
    induction seqs with
    | nil =>
      intro t ht _ _
      exact ⟨ht, (List.append_nil _).symm⟩
    | cons seq seqs ih =>
      intro t ht hsorted hseqs
      obtain ⟨hseq, hrest⟩ := List.forall_mem_cons.mp hseqs
      have hbefore : ∀ rs ∈ t.paths, IsBefore rs seq :=
        fun rs hrs => (List.pairwise_append.mp hsorted).2.2 rs hrs seq List.mem_cons_self
      have hpaths := paths_insert t hseq.1
      have hsorted' : ((t.insert seq).paths ++ seqs).Pairwise IsBefore := by
        rw [hpaths, List.append_assoc, List.singleton_append]
        exact hsorted
      have := ih (t.insert seq) (isOrdered_insert ht hseq.2 hbefore) hsorted' hrest
      rw [hpaths, List.append_assoc, List.singleton_append] at this
      exact this
  refine hfold s.sequences nil trivial (CharSet.pairwise_isBefore_sequences hs) fun seq hseq => ?_
  exact ⟨CharSet.ne_nil_of_mem_sequences hseq, CharSet.lo_le_hi_of_mem_sequences hseq⟩

/-! ## Walking -/

variable {h : ByteArray} {pos j : Nat}

theorem walk?_of_none {t : ByteTrie} (hb : h[pos]? = none) : t.walk? h pos = none := by
  cases t <;> simp [walk?, hb]

/-- A walk takes a byte with every edge. -/
theorem lt_of_walk? {t : ByteTrie} (hwalk : t.walk? h pos = some j) : pos < j ∧ j ≤ h.size := by
  induction t generalizing pos with
  | nil => cases hwalk
  | last r rest ih =>
    rw [walk?] at hwalk
    split at hwalk
    · next b hb =>
      split at hwalk
      · cases hwalk
      · split at hwalk
        · cases hwalk
          exact ⟨Nat.lt_succ_self pos, LiteralPrefix.lt_size_of_byte hb⟩
        · exact ih hwalk
    · cases hwalk
  | step r child rest ih₁ ih₂ =>
    rw [walk?] at hwalk
    split at hwalk
    · split at hwalk
      · cases hwalk
      · split at hwalk
        · exact ⟨Nat.lt_of_succ_lt (ih₁ hwalk).1, (ih₁ hwalk).2⟩
        · exact ih₂ hwalk
    · cases hwalk

theorem exists_contains_of_fitsAt {t : ByteTrie} {rs : List ByteRange} (hrs : rs ∈ t.paths)
    (hfits : FitsAt h pos rs) : ∃ s ∈ t.edges, ∃ b, h[pos]? = some b ∧ s.Contains b := by
  obtain ⟨s, hs, ss, rfl⟩ := exists_cons_of_mem_paths hrs
  exact ⟨s, hs, hfits.1⟩

/-- A byte that is not behind a range is in none of those that follow it. -/
theorem not_fitsAt_of_le {r : ByteRange} {rest : ByteTrie} {b : UInt8} (hb : h[pos]? = some b)
    (hedges : ∀ s ∈ rest.edges, r.hi < s.lo) (hle : b ≤ r.hi) :
    ¬ ∃ rs ∈ rest.paths, FitsAt h pos rs ∧ pos + rs.length = j := by
  rintro ⟨rs, hrs, hfits, -⟩
  obtain ⟨s, hs, b', hb', hcontains⟩ := exists_contains_of_fitsAt hrs hfits
  obtain rfl := Option.some.inj (hb.symm.trans hb')
  have hlt := UInt8.lt_of_le_of_lt hle (hedges s hs)
  exact absurd (UInt8.lt_of_lt_of_le hlt hcontains.1) (UInt8.lt_irrefl b)

theorem fitsAt_cons_of_byte {r : ByteRange} {rs : List ByteRange} {b : UInt8}
    (hb : h[pos]? = some b) : FitsAt h pos (r :: rs) ↔ r.Contains b ∧ FitsAt h (pos + 1) rs := by
  rw [FitsAt, hb]
  refine and_congr_left' ⟨?_, fun hcontains => ⟨b, rfl, hcontains⟩⟩
  rintro ⟨b', heq, hcontains⟩
  exact Option.some.inj heq ▸ hcontains

/-- Where edges ascend, a walk takes the one whose range contains the byte, if there is one. -/
theorem edge_eq_some_iff {r : ByteRange} {b : UInt8} {here? there? : Option Nat} {P Q : Prop}
    (hr : r.lo ≤ r.hi) (hapart : b ≤ r.hi → ¬ Q) (hhere : here? = some j ↔ P)
    (hthere : there? = some j ↔ Q) :
    (if b < r.lo then none else if b ≤ r.hi then here? else there?) = some j ↔
      r.Contains b ∧ P ∨ Q := by
  by_cases hlo : b < r.lo
  · have hnot : ¬ r.Contains b := fun hcontains =>
      absurd (UInt8.lt_of_le_of_lt hcontains.1 hlo) (UInt8.lt_irrefl _)
    have hnone := hapart (UInt8.le_of_lt (UInt8.lt_of_lt_of_le hlo hr))
    rw [if_pos hlo]
    exact iff_of_false (by simp) (not_or.mpr ⟨fun hc => hnot hc.1, hnone⟩)
  · by_cases hhi : b ≤ r.hi
    · have hcontains : r.Contains b := ⟨UInt8.not_lt.mp hlo, hhi⟩
      rw [if_neg hlo, if_pos hhi, or_iff_left (hapart hhi), and_iff_right hcontains, hhere]
    · rw [if_neg hlo, if_neg hhi, or_iff_right fun hc => hhi hc.1.2, hthere]

theorem walk?_eq_some_iff_of_none {t : ByteTrie} (hb : h[pos]? = none) :
    t.walk? h pos = some j ↔ ∃ rs ∈ t.paths, FitsAt h pos rs ∧ pos + rs.length = j := by
  rw [walk?_of_none hb]
  refine iff_of_false (by simp) ?_
  rintro ⟨rs, hrs, hfits, -⟩
  obtain ⟨s, -, b, hb', -⟩ := exists_contains_of_fitsAt hrs hfits
  rw [hb] at hb'
  cases hb'

/-- A walk along ordered edges takes the path that fits. -/
theorem walk?_eq_some_iff {t : ByteTrie} (ht : t.IsOrdered) :
    t.walk? h pos = some j ↔ ∃ rs ∈ t.paths, FitsAt h pos rs ∧ pos + rs.length = j := by
  induction t generalizing pos with
  | nil => simp [walk?, paths]
  | last r rest ih =>
    obtain ⟨hr, hedges, hrest⟩ := ht
    cases hb : h[pos]? with
    | none => exact walk?_eq_some_iff_of_none hb
    | some b =>
      have hsize := LiteralPrefix.lt_size_of_byte hb
      simp only [walk?, hb]
      rw [edge_eq_some_iff hr (not_fitsAt_of_le hb hedges) (Option.some.injEq ..).to_iff
        (ih hrest), paths, List.exists_mem_cons_iff, fitsAt_cons_of_byte hb,
        List.length_singleton, FitsAt, and_iff_left (Nat.succ_le_of_lt hsize)]
  | step r child rest ihc ihr =>
    obtain ⟨hr, hedges, -, hchild, hrest⟩ := ht
    cases hb : h[pos]? with
    | none => exact walk?_eq_some_iff_of_none hb
    | some b =>
      have hstep : ∀ rs : List ByteRange, FitsAt h pos (r :: rs) ∧ pos + (r :: rs).length = j ↔
          r.Contains b ∧ FitsAt h (pos + 1) rs ∧ pos + 1 + rs.length = j := by
        intro rs
        rw [fitsAt_cons_of_byte hb, and_assoc, List.length_cons, Nat.add_comm rs.length,
          Nat.add_assoc]
      simp only [walk?, hb]
      have hchildren : (∃ rs ∈ child.paths.map (r :: ·), FitsAt h pos rs ∧ pos + rs.length = j) ↔
          r.Contains b ∧ ∃ rs ∈ child.paths, FitsAt h (pos + 1) rs ∧ pos + 1 + rs.length = j := by
        simp only [List.mem_map, exists_exists_and_eq_and, hstep]
        simp only [and_left_comm, exists_and_left]
      rw [edge_eq_some_iff hr (not_fitsAt_of_le hb hedges) (ihc hchild) (ihr hrest), ← hchildren]
      simp only [paths, List.mem_append, or_and_right, exists_or]

/-- A walk along the trie of a set is along the encoding of one of its characters. -/
theorem walk?_ofSet {s : CharSet} (hs : s.IsAscending) :
    (ofSet s).walk? h pos = some j ↔
      ∃ c, s.contains c ∧ bytesAt h pos (Utf8.encode c) ∧ pos + (Utf8.encode c).length = j := by
  obtain ⟨hordered, hpaths⟩ := ofSet_spec hs
  rw [walk?_eq_some_iff hordered, hpaths]
  constructor
  · rintro ⟨rs, hrs, hfits, hj⟩
    obtain ⟨c, hc, hbytes, hn⟩ := (s.fitsAt_sequences h pos rs.length).mp ⟨rs, hrs, hfits, rfl⟩
    exact ⟨c, hc, hbytes, hn ▸ hj⟩
  · rintro ⟨c, hc, hbytes, hj⟩
    obtain ⟨rs, hrs, hfits, hn⟩ :=
      (s.fitsAt_sequences h pos (Utf8.encode c).length).mpr ⟨c, hc, hbytes, rfl⟩
    exact ⟨rs, hrs, hfits, hn ▸ hj⟩

/-! ## The instructions of a trie -/

theorem isConsuming_consume (ts : List Transition) : (consume ts).isConsuming := by
  unfold consume
  split <;> rfl

theorem next?_consume (ts : List Transition) (b : UInt8) :
    (consume ts).next? b = Transition.find? ts b := by
  unfold consume
  split
  · next t =>
    simp only [Instr.next?, Transition.find?, Transition.accepts, Bool.and_eq_true,
      decide_eq_true_eq]
    by_cases hlo : b < t.lo
    · rw [if_pos hlo, if_neg fun hc => UInt8.not_le.mpr hlo hc.1]
    · rw [if_neg hlo]
      by_cases hhi : b ≤ t.hi
      · rw [if_pos hhi, if_pos ⟨UInt8.not_lt.mp hlo, hhi⟩]
      · rw [if_neg hhi, if_neg fun hc => hhi hc.2]
  · rfl

variable {p : Program} {next : Nat}

/-- Where the transitions of a node lead, there the walk goes on. -/
def IsFollowed (p : Program) (h : ByteArray) (next pos : Nat) (t : ByteTrie) :
    Option Nat → Prop
  | none => t.walk? h pos = none
  | some target =>
    target = next ∧ t.walk? h pos = some (pos + 1) ∨
      p.Passes h (target, pos + 1) ((t.walk? h pos).map (next, ·))

/-- The instruction of a node passes on what the walk from it ends at. -/
theorem passes_node {t : ByteTrie} {i base : Nat}
    (hi : p.instrs[i]? = some (consume (t.transitions next base)))
    (hedges : ∀ b, h[pos]? = some b →
      t.IsFollowed p h next pos (Transition.find? (t.transitions next base) b)) :
    p.Passes h (i, pos) ((t.walk? h pos).map (next, ·)) := by
  have hconsuming := isConsuming_consume (t.transitions next base)
  have hsuccessors := Instr.successors_of_isConsuming hconsuming h pos
  cases hb : h[pos]? with
  | none =>
    rw [walk?_of_none hb]
    refine .stop hi (Instr.ne_accept_of_isConsuming hconsuming) ?_
    rw [hsuccessors, Instr.nextAt?, hb]
    rfl
  | some b =>
    have hfollowed := hedges b hb
    rw [Instr.nextAt?, hb, Option.bind_some, next?_consume] at hsuccessors
    cases hfind : Transition.find? (t.transitions next base) b with
    | none =>
      rw [hfind] at hfollowed hsuccessors
      rw [show t.walk? h pos = none from hfollowed]
      exact .stop hi (Instr.ne_accept_of_isConsuming hconsuming) hsuccessors
    | some target =>
      rw [hfind] at hfollowed hsuccessors
      have hstep : p.Passes h (i, pos) (some (target, pos + 1)) :=
        .step hi hsuccessors fun s => Instr.store_of_isConsuming hconsuming s pos
      rcases hfollowed with ⟨rfl, hwalk⟩ | hpasses
      · rw [hwalk]
        exact hstep
      · exact .trans hstep hpasses

theorem isFollowed_transitions {t : ByteTrie} {base : Nat}
    (hcode : p.HasCode base (t.childrenCode next base)) {b : UInt8} (hb : h[pos]? = some b) :
    t.IsFollowed p h next pos (Transition.find? (t.transitions next base) b) := by
  induction t generalizing base pos b with
  | nil => rfl
  | last r rest ih =>
    have hwalk : (last r rest).walk? h pos =
        if b < r.lo then none else if b ≤ r.hi then some (pos + 1) else rest.walk? h pos := by
      simp only [walk?, hb]
    simp only [transitions, Transition.find?]
    split
    · next hlo => rw [IsFollowed, hwalk, if_pos hlo]
    · next hlo =>
      split
      · next hhi => exact Or.inl ⟨rfl, by rw [hwalk, if_neg hlo, if_pos hhi]⟩
      · next hhi =>
        rw [if_neg hlo, if_neg hhi] at hwalk
        have := ih hcode hb
        unfold IsFollowed at this ⊢
        rwa [hwalk]
  | step r child rest ihc ihr =>
    have hwalk : (step r child rest).walk? h pos =
        if b < r.lo then none else if b ≤ r.hi then child.walk? h (pos + 1)
          else rest.walk? h pos := by
      simp only [walk?, hb]
    obtain ⟨hnode, hcode⟩ := hcode
    rw [Program.hasCode_append, length_childrenCode] at hcode
    simp only [transitions, Transition.find?]
    split
    · next hlo => rw [IsFollowed, hwalk, if_pos hlo]
    · next hlo =>
      split
      · next hhi =>
        refine Or.inr ?_
        rw [hwalk, if_neg hlo, if_pos hhi]
        exact passes_node hnode fun b' hb' => ihc hcode.1 hb'
      · next hhi =>
        rw [if_neg hlo, if_neg hhi] at hwalk
        have hsize : base + 1 + child.inner = base + child.size := by
          rw [size, Nat.add_assoc]
        have := ihr (hsize ▸ hcode.2) hb
        unfold IsFollowed at this ⊢
        rwa [hwalk]

/-- The instructions of a trie do as the walk along it does. -/
theorem passes_code {t : ByteTrie} {base : Nat} (hcode : p.HasCode base (t.code base next))
    (h : ByteArray) (pos : Nat) : p.Passes h (base, pos) ((t.walk? h pos).map (next, ·)) :=
  passes_node hcode.1 fun _ hb => isFollowed_transitions hcode.2 hb

end ByteTrie
end LinearRegex
