import LinearRegex.Proofs.Program.Graph
import Mathlib.Tactic.Ring

/-!
# The shape of the code of an expression

The block of an expression is left for one instruction only, accepts nowhere, splits to different
instructions, and stores the ends of no groups but those of the expression (`fits_of_mem_code`).
-/

namespace LinearRegex

namespace Instr

/-- Where an instruction can go on, with or without consuming a byte. -/
def exits (i : Instr) : List Nat :=
  i.targets ++ i.transitions.map (·.next)

/-- The instruction is as it may be in the block of a piece of code with `size` instructions at
`base` that is left for `next` and stores the ends of the given groups. -/
structure Fits (base size next : Nat) (groups : List Nat) (i : Instr) : Prop where
  exits : ∀ t ∈ i.exits, t = next ∨ base ≤ t ∧ t < base + size
  ne_accept : i ≠ .accept
  group : ∀ slot after, i = .save slot after → slot / 2 ∈ groups
  /-- A split has two targets, provided that the block is left for an instruction outside of it. -/
  split : ∀ first second, i = .split first second → first = second →
    base ≤ next ∧ next < base + size

/-- A block lies within a larger one. -/
theorem Fits.weaken {base size next base' size' next' : Nat} {groups groups' : List Nat}
    {i : Instr} (h : i.Fits base' size' next' groups') (hbase : base ≤ base')
    (hsize : base' + size' ≤ base + size)
    (hnext : next' = next ∨
      (base ≤ next' ∧ next' < base + size) ∧ (next' < base' ∨ base' + size' ≤ next'))
    (hgroups : ∀ g ∈ groups', g ∈ groups) : i.Fits base size next groups := by
  refine ⟨fun t ht => ?_, h.ne_accept, fun slot after heq => hgroups _ (h.group slot after heq),
    fun first second heq hsame => ?_⟩
  · rcases h.exits t ht with rfl | ⟨hlo, hhi⟩
    · exact hnext.imp_right And.left
    · right
      omega
  · have := h.split first second heq hsame
    omega

theorem targetsAt_subset {h : ByteArray} {pos t : Nat} {i : Instr} (ht : t ∈ i.targetsAt h pos) :
    t ∈ i.targets := by
  cases i with
  | look l next =>
    rw [targetsAt] at ht
    split at ht
    · exact ht
    · cases ht
  | _ => exact ht

theorem mem_exits_of_targetsAt {h : ByteArray} {pos t : Nat} {i : Instr}
    (ht : t ∈ i.targetsAt h pos) : t ∈ i.exits :=
  List.mem_append_left _ (targetsAt_subset ht)

theorem exists_of_find?_eq_some {ts : List Transition} {b : UInt8} {t : Nat}
    (h : Transition.find? ts b = some t) : ∃ tr ∈ ts, tr.lo ≤ b ∧ b ≤ tr.hi ∧ tr.next = t := by
  induction ts with
  | nil => cases h
  | cons tr ts ih =>
    rw [Transition.find?] at h
    split at h
    · cases h
    · next hlo =>
      split at h
      · next hhi =>
        exact ⟨tr, List.mem_cons_self, UInt8.not_lt.mp hlo, hhi, Option.some.inj h⟩
      · obtain ⟨tr', htr', hbounds⟩ := ih h
        exact ⟨tr', List.mem_cons_of_mem tr htr', hbounds⟩

/-- What consumes a byte does so by a transition that accepts it. -/
theorem exists_transition_of_next? {i : Instr} {b : UInt8} {t : Nat} (h : i.next? b = some t) :
    ∃ tr ∈ i.transitions, tr.lo ≤ b ∧ b ≤ tr.hi ∧ tr.next = t := by
  cases i with
  | byteRange tr =>
    rw [next?] at h
    split at h
    · next haccepts =>
      simp only [Transition.accepts, Bool.and_eq_true, decide_eq_true_eq] at haccepts
      exact ⟨tr, List.mem_singleton_self tr, haccepts.1, haccepts.2, Option.some.inj h⟩
    · cases h
  | sparse ts => exact exists_of_find?_eq_some h
  | _ => cases h

theorem mem_exits_of_nextAt? {h : ByteArray} {pos t : Nat} {i : Instr}
    (ht : i.nextAt? h pos = some t) : t ∈ i.exits := by
  obtain ⟨b, -, hb⟩ := Option.bind_eq_some_iff.mp ht
  obtain ⟨tr, htr, -, -, rfl⟩ := exists_transition_of_next? hb
  exact List.mem_append_right _ (List.mem_map_of_mem htr)

end Instr

/-- A node follows another one through an exit, and at the same position unless a byte is
consumed. -/
theorem Program.exists_exit_of_mem_successors {p : Program} {h : ByteArray} {c d : Node}
    (hd : d ∈ p.successors h c) :
    ∃ instr, p.instrs[c.1]? = some instr ∧ d.1 ∈ instr.exits ∧
      (instr.isConsuming = false → d.2 = c.2) := by
  rw [Program.successors, List.mem_append, List.mem_map, Option.mem_toList,
    Option.map_eq_some_iff] at hd
  rcases hd with ⟨t, ht, rfl⟩ | ⟨t, ht, rfl⟩
  · rw [Program.targetsAt] at ht
    split at ht
    · next instr hi => exact ⟨instr, hi, Instr.mem_exits_of_targetsAt ht, fun _ => rfl⟩
    · cases ht
  · rw [Program.nextAt?, Option.bind_eq_some_iff] at ht
    obtain ⟨instr, hi, ht⟩ := ht
    refine ⟨instr, hi, Instr.mem_exits_of_nextAt? ht, fun hnot => ?_⟩
    rw [Instr.isConsuming_of_nextAt? ht] at hnot
    cases hnot

/-! ## Tries -/

namespace ByteTrie

theorem exits_consume (ts : List Transition) : (consume ts).exits = ts.map (·.next) := by
  unfold consume
  split <;> simp [Instr.exits, Instr.targets, Instr.transitions]

theorem consume_ne_accept (ts : List Transition) : consume ts ≠ .accept := by
  unfold consume
  split <;> simp

theorem consume_ne_save (ts : List Transition) (slot after : Nat) :
    consume ts ≠ .save slot after := by
  unfold consume
  split <;> simp

theorem consume_ne_split (ts : List Transition) (first second : Nat) :
    consume ts ≠ .split first second := by
  unfold consume
  split <;> simp

theorem fits_consume {ts : List Transition} {base size next : Nat} (groups : List Nat)
    (h : ∀ tr ∈ ts, tr.next = next ∨ base ≤ tr.next ∧ tr.next < base + size) :
    (consume ts).Fits base size next groups := by
  refine ⟨fun t ht => ?_, consume_ne_accept ts, fun slot after heq => ?_,
    fun first second heq => ?_⟩
  · rw [exits_consume, List.mem_map] at ht
    obtain ⟨tr, htr, rfl⟩ := ht
    exact h tr htr
  · exact absurd heq (consume_ne_save ts slot after)
  · exact absurd heq (consume_ne_split ts first second)

theorem next_of_mem_transitions {t : ByteTrie} {next base : Nat} {tr : Transition}
    (htr : tr ∈ t.transitions next base) :
    tr.next = next ∨ base ≤ tr.next ∧ tr.next < base + t.inner := by
  induction t generalizing base with
  | nil => cases htr
  | last r rest ih =>
    rcases List.mem_cons.mp htr with rfl | htr
    · exact Or.inl rfl
    · exact ih htr
  | step r child rest _ ih =>
    rw [inner]
    rcases List.mem_cons.mp htr with rfl | htr
    · right
      dsimp only
      omega
    · rcases ih htr with hnext | hbounds
      · exact Or.inl hnext
      · right
        rw [size] at hbounds
        omega

theorem fits_of_mem_childrenCode {t : ByteTrie} {next base : Nat} {i : Instr}
    (hi : i ∈ t.childrenCode next base) : i.Fits base t.inner next [] := by
  induction t generalizing base with
  | nil => cases hi
  | last r rest ih => exact ih hi
  | step r child rest ihChild ihRest =>
    rw [childrenCode, List.mem_cons, List.mem_append] at hi
    rcases hi with rfl | hi | hi
    · have hfits : (consume (child.transitions next (base + 1))).Fits (base + 1) child.inner next
          [] := fits_consume [] fun tr htr => next_of_mem_transitions htr
      refine hfits.weaken (by omega) ?_ (Or.inl rfl) (by simp)
      rw [inner]
      omega
    · refine (ihChild hi).weaken (by omega) ?_ (Or.inl rfl) (by simp)
      rw [inner]
      omega
    · refine (ihRest hi).weaken (by omega) ?_ (Or.inl rfl) (by simp)
      rw [inner, size]
      omega

theorem fits_of_mem_code {t : ByteTrie} {next base : Nat} {i : Instr}
    (hi : i ∈ t.code base next) : i.Fits base t.size next [] := by
  rcases List.mem_cons.mp hi with rfl | hi
  · have hfits : (consume (t.transitions next (base + 1))).Fits (base + 1) t.inner next [] :=
      fits_consume [] fun tr htr => next_of_mem_transitions htr
    refine hfits.weaken (by omega) ?_ (Or.inl rfl) (by simp)
    rw [size]
    omega
  · refine (fits_of_mem_childrenCode hi).weaken (by omega) ?_ (Or.inl rfl) (by simp)
    rw [size]
    omega

end ByteTrie

/-! ## Expressions -/

namespace ByteExpr

/-- The groups of an expression. -/
def groups : ByteExpr → List Nat
  | fail | bytes _ | char _ | look _ => []
  | capture index body => index :: body.groups
  | seq first second | choice first second => first.groups ++ second.groups
  | times _ body | atMost _ _ body | star _ body | plus _ body => body.groups

theorem fits_loop {base size body next : Nat} (greedy : Bool) (groups : List Nat)
    (hbody : base ≤ body ∧ body < base + size) :
    (loop greedy body next).Fits base size next groups := by
  refine ⟨fun t ht => ?_, ?_, fun slot after heq => ?_, fun first second heq hsame => ?_⟩
  · have : t = body ∨ t = next := by
      cases greedy <;> simp [loop, Instr.exits, Instr.targets, Instr.transitions] at ht <;> tauto
    rcases this with rfl | rfl
    · exact Or.inr hbody
    · exact Or.inl rfl
  · cases greedy <;> simp [loop]
  · cases greedy <;> simp [loop] at heq
  · have : next = body := by
      cases greedy <;> simp [loop] at heq <;> omega
    omega

theorem fits_of_mem_bytesCode {bs : List UInt8} {base next : Nat} {i : Instr}
    (hi : i ∈ bytesCode base next bs) : i.Fits base (max 1 bs.length) next [] := by
  induction bs generalizing base with
  | nil =>
    rw [bytesCode, List.mem_singleton] at hi
    subst hi
    exact ⟨by simp [Instr.exits, Instr.targets, Instr.transitions], by simp, by simp, by simp⟩
  | cons b bs ih =>
    cases bs with
    | nil =>
      rw [bytesCode, List.mem_singleton] at hi
      subst hi
      exact ⟨by simp [Instr.exits, Instr.targets, Instr.transitions], by simp, by simp, by simp⟩
    | cons c bs =>
      rcases List.mem_cons.mp hi with rfl | hi
      · exact ⟨by simp [Instr.exits, Instr.targets, Instr.transitions], by simp, by simp, by simp⟩
      · refine (ih hi).weaken (by omega) ?_ (Or.inl rfl) (by simp)
        simp only [List.length_cons]
        omega

theorem fits_of_mem_timesCode {size : Nat} {block : Nat → Nat → List Instr} {groups : List Nat}
    (hpos : 0 < size)
    (hblock : ∀ base next, ∀ i ∈ block base next, i.Fits base size next groups)
    {more base next : Nat} {i : Instr} (hi : i ∈ timesCode size block base next more) :
    i.Fits base ((more + 1) * size) next groups := by
  induction more generalizing base with
  | zero =>
    refine (hblock base next i hi).weaken (Nat.le_refl _) ?_ (Or.inl rfl) fun g hg => hg
    omega
  | succ more ih =>
    have hsize : (more + 1 + 1) * size = (more + 1) * size + size := by ring
    have hmore : size ≤ (more + 1) * size := Nat.le_mul_of_pos_left size (Nat.succ_pos more)
    rcases List.mem_append.mp hi with hi | hi
    · refine (hblock base (base + size) i hi).weaken (Nat.le_refl _) ?_ ?_ fun g hg => hg
      · omega
      · right
        omega
    · refine (ih hi).weaken (by omega) ?_ (Or.inl rfl) fun g hg => hg
      omega

theorem fits_of_mem_atMostCode {greedy : Bool} {size : Nat} {block : Nat → Nat → List Instr}
    {groups : List Nat} (hpos : 0 < size)
    (hblock : ∀ base next, ∀ i ∈ block base next, i.Fits base size next groups)
    {more base next : Nat} {i : Instr} (hi : i ∈ atMostCode greedy size block base next more) :
    i.Fits base ((more + 1) * (1 + size)) next groups := by
  induction more generalizing base with
  | zero =>
    rcases List.mem_cons.mp hi with rfl | hi
    · exact fits_loop greedy groups (by omega)
    · refine (hblock (base + 1) next i hi).weaken (by omega) ?_ (Or.inl rfl) fun g hg => hg
      omega
  | succ more ih =>
    have hsize : (more + 1 + 1) * (1 + size) = (more + 1) * (1 + size) + (1 + size) := by ring
    have hmore : 1 + size ≤ (more + 1) * (1 + size) :=
      Nat.le_mul_of_pos_left (1 + size) (Nat.succ_pos more)
    rw [atMostCode, List.mem_cons, List.mem_append] at hi
    rcases hi with rfl | hi | hi
    · exact fits_loop greedy groups (by omega)
    · refine (hblock (base + 1) (base + 1 + size) i hi).weaken (by omega) ?_ ?_ fun g hg => hg
      · omega
      · right
        omega
    · refine (ih hi).weaken (by omega) ?_ (Or.inl rfl) fun g hg => hg
      omega

theorem size_pos (e : ByteExpr) : 0 < e.size := by
  induction e with
  | fail | look _ | bytes _ | capture _ _ _ | choice _ _ _ _ | star _ _ _ | plus _ _ _ =>
    simp only [size]
    omega
  | char t => exact Nat.lt_add_right _ Nat.one_pos
  | seq first second ih _ => exact Nat.lt_add_right _ ih
  | times more body ih => exact Nat.mul_pos (Nat.succ_pos more) ih
  | atMost more _ body ih => exact Nat.mul_pos (Nat.succ_pos more) (by omega)

/-- The block of an expression is left for one instruction only. -/
theorem fits_of_mem_code {e : ByteExpr} {base next : Nat} {i : Instr}
    (hi : i ∈ e.code base next) : i.Fits base e.size next e.groups := by
  induction e generalizing base next i with
  | fail | look l =>
    rw [code, List.mem_singleton] at hi
    subst hi
    exact ⟨by simp [Instr.exits, Instr.targets, Instr.transitions], by simp, by simp, by simp⟩
  | bytes bs => exact fits_of_mem_bytesCode hi
  | char t => exact ByteTrie.fits_of_mem_code hi
  | capture index body ih =>
    rw [code, List.mem_cons, List.mem_append, List.mem_singleton] at hi
    rw [size, groups]
    rcases hi with rfl | hi | rfl
    · refine ⟨fun t ht => ?_, by simp, fun slot after heq => ?_, by simp⟩
      · simp only [Instr.exits, Instr.targets, Instr.transitions, List.map_nil, List.append_nil,
          List.mem_singleton] at ht
        right
        omega
      · obtain ⟨rfl, -⟩ := Instr.save.inj heq
        simp
    · refine (ih hi).weaken (by omega) (by omega) ?_ fun g hg => List.mem_cons_of_mem index hg
      right
      omega
    · refine ⟨fun t ht => ?_, by simp, fun slot after heq => ?_, by simp⟩
      · simp only [Instr.exits, Instr.targets, Instr.transitions, List.map_nil, List.append_nil,
          List.mem_singleton] at ht
        exact Or.inl ht
      · obtain ⟨rfl, -⟩ := Instr.save.inj heq
        have : (2 * index + 1) / 2 = index := by omega
        simp [this]
  | seq first second ih₁ ih₂ =>
    rw [size, groups]
    have hpos := second.size_pos
    rcases List.mem_append.mp hi with hi | hi
    · refine (ih₁ hi).weaken (Nat.le_refl _) (by omega) ?_ fun g hg => List.mem_append_left _ hg
      right
      omega
    · exact (ih₂ hi).weaken (by omega) (by omega) (Or.inl rfl) fun g hg =>
        List.mem_append_right _ hg
  | choice first second ih₁ ih₂ =>
    have hpos := second.size_pos
    rw [code, List.mem_cons, List.mem_append] at hi
    rw [size, groups]
    rcases hi with rfl | hi | hi
    · refine ⟨fun t ht => ?_, by simp, by simp, fun a b heq hsame => ?_⟩
      · simp only [Instr.exits, Instr.targets, Instr.transitions, List.map_nil, List.append_nil,
          List.mem_cons, List.not_mem_nil, or_false] at ht
        right
        omega
      · obtain ⟨rfl, rfl⟩ := Instr.split.inj heq
        have := first.size_pos
        omega
    · exact (ih₁ hi).weaken (by omega) (by omega) (Or.inl rfl) fun g hg =>
        List.mem_append_left _ hg
    · exact (ih₂ hi).weaken (by omega) (by omega) (Or.inl rfl) fun g hg =>
        List.mem_append_right _ hg
  | times more body ih =>
    exact fits_of_mem_timesCode body.size_pos (fun _ _ _ hi => ih hi) hi
  | atMost more greedy body ih =>
    exact fits_of_mem_atMostCode body.size_pos (fun _ _ _ hi => ih hi) hi
  | star greedy body ih =>
    rw [size, groups]
    have hpos := body.size_pos
    rcases List.mem_cons.mp hi with rfl | hi
    · exact fits_loop greedy _ (by omega)
    · refine (ih hi).weaken (by omega) (by omega) ?_ fun g hg => hg
      right
      omega
  | plus greedy body ih =>
    rw [size, groups]
    have hpos := body.size_pos
    rcases List.mem_append.mp hi with hi | hi
    · refine (ih hi).weaken (Nat.le_refl _) (by omega) ?_ fun g hg => hg
      right
      omega
    · rw [List.mem_singleton] at hi
      subst hi
      exact fits_loop greedy _ (by omega)

end ByteExpr
end LinearRegex
