import LinearRegex.Proofs.Expr.Ways

/-!
# What the program of an expression matches

The block of an expression takes a path from its first instruction to the instruction behind it just
over the stretches that the expression matches.  Every such stretch has a path (`reaches_of_spans`).
The other way round, every path to a match first crosses the block, with the slots that it carries,
and then has fewer steps left (`exists_crosses_of_carriesIn`); what it crosses is a stretch that the
expression matches (`Crosses.spans`).  So a whole program comes to a match just where the expression
does (`reaches_accept_iff`).
-/

namespace LinearRegex
namespace ByteExpr

/-- From one point to the other, a path can cross the block of the expression.  Unlike the ways of
an expression, a path can turn in a loop without taking a byte. -/
inductive Crosses (h : ByteArray) : ByteExpr → (a b : Point) → Prop
  | leaf {e : ByteExpr} {a : Point} {j : Nat} (he : e.isLeaf) (hj : e.leafEnd? h a.1 = some j) :
      Crosses h e a (j, a.2)
  | capture {index : Nat} {body : ByteExpr} {a b : Point}
      (hbody : Crosses h body (a.1, a.2.store (2 * index) (some a.1)) b) :
      Crosses h (capture index body) a (b.1, b.2.store (2 * index + 1) (some b.1))
  | seq {first second : ByteExpr} {a b c : Point} (hfirst : Crosses h first a b)
      (hsecond : Crosses h second b c) : Crosses h (seq first second) a c
  | first {first second : ByteExpr} {a b : Point} (hfirst : Crosses h first a b) :
      Crosses h (choice first second) a b
  | second {first second : ByteExpr} {a b : Point} (hsecond : Crosses h second a b) :
      Crosses h (choice first second) a b
  | timesLast {body : ByteExpr} {a b : Point} (hbody : Crosses h body a b) :
      Crosses h (times 0 body) a b
  | timesMore {more : Nat} {body : ByteExpr} {a b c : Point} (hbody : Crosses h body a b)
      (hrest : Crosses h (times more body) b c) : Crosses h (times (more + 1) body) a c
  | atMostNone {more : Nat} {greedy : Bool} {body : ByteExpr} {a : Point} :
      Crosses h (atMost more greedy body) a a
  | atMostLast {greedy : Bool} {body : ByteExpr} {a b : Point} (hbody : Crosses h body a b) :
      Crosses h (atMost 0 greedy body) a b
  | atMostMore {more : Nat} {greedy : Bool} {body : ByteExpr} {a b c : Point}
      (hbody : Crosses h body a b) (hrest : Crosses h (atMost more greedy body) b c) :
      Crosses h (atMost (more + 1) greedy body) a c
  | starNone {greedy : Bool} {body : ByteExpr} {a : Point} : Crosses h (star greedy body) a a
  | starMore {greedy : Bool} {body : ByteExpr} {a b c : Point} (hbody : Crosses h body a b)
      (hrest : Crosses h (star greedy body) b c) : Crosses h (star greedy body) a c
  | plusLast {greedy : Bool} {body : ByteExpr} {a b : Point} (hbody : Crosses h body a b) :
      Crosses h (plus greedy body) a b
  | plusMore {greedy : Bool} {body : ByteExpr} {a b c : Point} (hbody : Crosses h body a b)
      (hrest : Crosses h (plus greedy body) b c) : Crosses h (plus greedy body) a c

/-- The block takes a path over every stretch that the relation allows. -/
def IsComplete (p : Program) (h : ByteArray) (block : Nat → Nat → List Instr)
    (R : Nat → Nat → Prop) : Prop :=
  ∀ {base next i j : Nat}, p.HasCode base (block base next) → R i j →
    p.Reaches h (base, i) (next, j)

/-- Every path to a match that enters the block of the expression crosses it. -/
def IsCrossed (p : Program) (h : ByteArray) (e : ByteExpr) : Prop :=
  ∀ {base next n : Nat} {a : Point} {d : Node × Slots}, p.HasCode base (e.code base next) →
    p.instrs[d.1.1]? = some .accept → p.CarriesIn h n ((base, a.1), a.2) d →
    ∃ b, e.Crosses h a b ∧ ∃ m < n, p.CarriesIn h m ((next, b.1), b.2) d

variable {p : Program} {h : ByteArray} {i j base next : Nat}

theorem nextAt?_byte (b : UInt8) :
    (Instr.byteRange ⟨b, b, next⟩).nextAt? h i = if h[i]? = some b then some next else none := by
  cases hb : h[i]? with
  | none => simp [Instr.nextAt?, hb]
  | some b' =>
    rw [Instr.nextAt?, hb, Option.bind_some, Instr.next?]
    refine if_congr ?_ rfl rfl
    rw [Option.some.injEq, Transition.accepts, Bool.and_eq_true, decide_eq_true_eq,
      decide_eq_true_eq]
    exact ⟨fun hle => UInt8.le_antisymm hle.2 hle.1,
      fun heq => heq ▸ ⟨UInt8.le_refl _, UInt8.le_refl _⟩⟩

theorem passes_byte {b : UInt8} (hbyte : p.instrs[base]? = some (.byteRange ⟨b, b, next⟩))
    (i : Nat) :
    p.Passes h (base, i) (if h[i]? = some b then some (next, i + 1) else none) := by
  have hconsuming : (Instr.byteRange ⟨b, b, next⟩).isConsuming := rfl
  have hsuccessors := Instr.successors_of_isConsuming hconsuming h i
  rw [nextAt?_byte] at hsuccessors
  split
  · next hb =>
    rw [if_pos hb] at hsuccessors
    exact .step hbyte hsuccessors fun s => rfl
  · next hb =>
    rw [if_neg hb] at hsuccessors
    exact .stop hbyte (Instr.ne_accept_of_isConsuming hconsuming) hsuccessors

theorem passes_bytesCode {bs : List UInt8} (hcode : p.HasCode base (bytesCode base next bs)) :
    p.Passes h (base, i) ((spellEnd? h bs i).map (next, ·)) := by
  induction bs generalizing base i with
  | nil => exact .step hcode.1 (Instr.successors_nop h i next) fun s => rfl
  | cons b bs ih =>
    cases bs with
    | nil =>
      have := passes_byte (h := h) hcode.1 i
      simp only [spellEnd?]
      split
      · next hb => rwa [if_pos hb] at this
      · next hb => rwa [if_neg hb] at this
    | cons c cs =>
      have := passes_byte (h := h) hcode.1 i
      rw [spellEnd?]
      split
      · next hb =>
        rw [if_pos hb] at this
        exact .trans this (ih hcode.2)
      · next hb => rwa [if_neg hb] at this

/-- The block of a leaf passes on where its match ends. -/
theorem passes_leaf {e : ByteExpr} (he : e.isLeaf) (hcode : p.HasCode base (e.code base next)) :
    p.Passes h (base, i) ((e.leafEnd? h i).map (next, ·)) := by
  cases e with
  | fail => exact .stop hcode.1 (by simp) (Instr.successors_fail h i)
  | bytes bs => exact passes_bytesCode hcode
  | char t => exact ByteTrie.passes_code hcode h i
  | look l =>
    have hsuccessors := Instr.successors_look h i l next
    rw [leafEnd?]
    split
    · next hholds =>
      rw [if_pos hholds] at hsuccessors
      exact .step hcode.1 hsuccessors fun s => rfl
    · next hnot =>
      rw [if_neg hnot] at hsuccessors
      exact .stop hcode.1 (by simp) hsuccessors
  | _ => cases he

/-! ## Loops and copies -/

theorem loop_ne_accept (greedy : Bool) (body next : Nat) : loop greedy body next ≠ .accept := by
  unfold loop
  split <;> simp

theorem mem_successors_loop {greedy : Bool} {body next : Nat} {c : Node} :
    c ∈ (loop greedy body next).successors h i ↔ c = (body, i) ∨ c = (next, i) := by
  unfold loop
  split
  · simp
  · simp [or_comm]

theorem reaches_of_loop {greedy : Bool} {body : Nat}
    (hloop : p.instrs[base]? = some (loop greedy body next)) :
    p.Reaches h (base, i) (body, i) ∧ p.Reaches h (base, i) (next, i) := by
  have hmem : ∀ c, c = (body, i) ∨ c = (next, i) → c ∈ p.successors h (base, i) := by
    intro c hc
    rw [Program.successors_of_instr hloop]
    exact mem_successors_loop.mpr hc
  exact ⟨.head (hmem _ (Or.inl rfl)) (.refl _), .head (hmem _ (Or.inr rfl)) (.refl _)⟩

/-- A path to a match enters a loop or passes it by. -/
theorem carriesIn_of_loop {greedy : Bool} {body n : Nat} {a : Point} {d : Node × Slots}
    (hloop : p.instrs[base]? = some (loop greedy body next))
    (hat : p.instrs[d.1.1]? = some .accept) (hpath : p.CarriesIn h n ((base, a.1), a.2) d) :
    ∃ m < n, p.CarriesIn h m ((body, a.1), a.2) d ∨ p.CarriesIn h m ((next, a.1), a.2) d := by
  have hstore : (loop greedy body next).store a.2 a.1 = a.2 := by
    unfold loop
    split <;> rfl
  obtain ⟨m, rfl, c, hc, hrest⟩ := hpath.of_instr hloop (loop_ne_accept greedy body next) hat
  rw [hstore] at hrest
  rcases mem_successors_loop.mp hc with rfl | rfl
  · exact ⟨m, Nat.lt_succ_self m, Or.inl hrest⟩
  · exact ⟨m, Nat.lt_succ_self m, Or.inr hrest⟩

section

variable {block : Nat → Nat → List Instr} {R : Nat → Nat → Prop} {size : Nat}

theorem isComplete_timesCode (hsize : ∀ base next, (block base next).length = size)
    (hblock : IsComplete p h block R) (more : Nat) :
    IsComplete p h (fun base next => timesCode size block base next more)
      (Copies R (more + 1)) := by
  intro base next i j hcode hcopies
  induction more generalizing base i with
  | zero =>
    obtain ⟨k, hik, rfl⟩ := hcopies
    exact hblock hcode hik
  | succ more ih =>
    obtain ⟨k, hik, hkj⟩ := hcopies
    simp only [timesCode, Program.hasCode_append, hsize] at hcode
    exact (hblock hcode.1 hik).trans (ih hcode.2 hkj)

theorem isComplete_atMostCode (hsize : ∀ base next, (block base next).length = size)
    (hblock : IsComplete p h block R) (greedy : Bool) (more : Nat) :
    IsComplete p h (fun base next => atMostCode greedy size block base next more)
      (fun i j => ∃ n ≤ more + 1, Copies R n i j) := by
  rintro base next i j hcode ⟨n, hn, hcopies⟩
  induction more generalizing base i n with
  | zero =>
    obtain ⟨hloop, hcode⟩ := hcode
    obtain ⟨hbody, hnext⟩ := reaches_of_loop (h := h) (i := i) hloop
    cases n with
    | zero =>
      obtain rfl : i = j := hcopies
      exact hnext
    | succ n =>
      obtain rfl : n = 0 := by omega
      obtain ⟨k, hik, rfl⟩ := hcopies
      exact hbody.trans (hblock hcode hik)
  | succ more ih =>
    obtain ⟨hloop, hcode⟩ := hcode
    rw [Program.hasCode_append, hsize] at hcode
    obtain ⟨hbody, hnext⟩ := reaches_of_loop (h := h) (i := i) hloop
    cases n with
    | zero =>
      obtain rfl : i = j := hcopies
      exact hnext
    | succ n =>
      obtain ⟨k, hik, hkj⟩ := hcopies
      exact hbody.trans ((hblock hcode.1 hik).trans (ih hcode.2 n (by omega) hkj))

end

theorem isComplete_leaf {e : ByteExpr} (he : e.isLeaf) : IsComplete p h e.code (e.Spans h) := by
  intro base next i j hcode hspans
  have hpasses := passes_leaf (h := h) (i := i) he hcode
  rw [(spans_iff_leafEnd? he).mp hspans] at hpasses
  exact hpasses.reaches

/-- There is a path over every stretch that the expression matches. -/
theorem reaches_of_spans (e : ByteExpr) : IsComplete p h e.code (e.Spans h) := by
  induction e with
  | fail | bytes _ | char _ | look _ => exact isComplete_leaf rfl
  | capture index body ih =>
    rintro base next i j ⟨hopen, hcode⟩ hspans
    rw [Program.hasCode_append, length_code, Program.hasCode_singleton] at hcode
    have hfirst : p.Reaches h (base, i) (base + 1, i) :=
      .head ((Program.mem_successors_of_save hopen).mpr rfl) (.refl _)
    have hlast : p.Reaches h (base + 1 + body.size, j) (next, j) :=
      .head ((Program.mem_successors_of_save hcode.2).mpr rfl) (.refl _)
    exact hfirst.trans ((ih hcode.1 hspans).trans hlast)
  | seq first second ih₁ ih₂ =>
    rintro base next i j hcode ⟨k, hik, hkj⟩
    rw [code, Program.hasCode_append, length_code] at hcode
    exact (ih₁ hcode.1 hik).trans (ih₂ hcode.2 hkj)
  | choice first second ih₁ ih₂ =>
    rintro base next i j ⟨hsplit, hcode⟩ hspans
    rw [Program.hasCode_append, length_code] at hcode
    rcases hspans with hspans | hspans
    · refine .head ?_ (ih₁ hcode.1 hspans)
      rw [Program.successors_of_instr hsplit, Instr.successors_split]
      exact List.mem_cons_self
    · refine .head ?_ (ih₂ hcode.2 hspans)
      rw [Program.successors_of_instr hsplit, Instr.successors_split]
      exact List.mem_cons_of_mem _ List.mem_cons_self
  | times more body ih => exact isComplete_timesCode body.length_code ih more
  | atMost more greedy body ih => exact isComplete_atMostCode body.length_code ih greedy more
  | star greedy body ih =>
    rintro base next i j ⟨hloop, hcode⟩ ⟨n, hcopies⟩
    induction n generalizing i with
    | zero =>
      obtain rfl : i = j := hcopies
      exact (reaches_of_loop hloop).2
    | succ n ihn =>
      obtain ⟨k, hik, hkj⟩ := hcopies
      exact (reaches_of_loop hloop).1.trans ((ih hcode hik).trans (ihn hkj))
  | plus greedy body ih =>
    rintro base next i j hcode ⟨n, k, hik, hcopies⟩
    rw [code, Program.hasCode_append, length_code, Program.hasCode_singleton] at hcode
    refine (ih hcode.1 hik).trans ?_
    clear hik
    induction n generalizing k with
    | zero =>
      obtain rfl : k = j := hcopies
      exact (reaches_of_loop hcode.2).2
    | succ n ihn =>
      obtain ⟨l, hkl, hlj⟩ := hcopies
      exact (reaches_of_loop hcode.2).1.trans ((ih hcode.1 hkl).trans (ihn l hlj))

/-! ## Crossing a block -/

/-- What a path crosses is a stretch that the expression matches. -/
theorem Crosses.spans {e : ByteExpr} {a b : Point} (hcrosses : e.Crosses h a b) :
    e.Spans h a.1 b.1 := by
  induction hcrosses with
  | leaf he hj => exact (spans_iff_leafEnd? he).mpr hj
  | capture _ ih => exact ih
  | seq _ _ ih₁ ih₂ => exact ⟨_, ih₁, ih₂⟩
  | first _ ih => exact Or.inl ih
  | second _ ih => exact Or.inr ih
  | timesLast _ ih => exact ⟨_, ih, rfl⟩
  | timesMore _ _ ih₁ ih₂ => exact ⟨_, ih₁, ih₂⟩
  | atMostNone => exact ⟨0, Nat.zero_le _, rfl⟩
  | atMostLast _ ih => exact ⟨1, Nat.le_refl 1, _, ih, rfl⟩
  | atMostMore _ _ ih₁ ih₂ =>
    obtain ⟨n, hn, hcopies⟩ := ih₂
    exact ⟨n + 1, Nat.succ_le_succ hn, _, ih₁, hcopies⟩
  | starNone => exact ⟨0, rfl⟩
  | starMore _ _ ih₁ ih₂ =>
    obtain ⟨n, hcopies⟩ := ih₂
    exact ⟨n + 1, _, ih₁, hcopies⟩
  | plusLast _ ih => exact ⟨0, _, ih, rfl⟩
  | plusMore _ _ ih₁ ih₂ =>
    obtain ⟨n, hcopies⟩ := ih₂
    exact ⟨n + 1, _, ih₁, hcopies⟩

section

variable {body : ByteExpr}

theorem isCrossed_leaf {e : ByteExpr} (he : e.isLeaf) : IsCrossed p h e := by
  intro base next n a d hcode hat hpath
  obtain ⟨c, hc, hrest⟩ := (passes_leaf he hcode).of_carriesIn hat hpath
  obtain ⟨j, hj, rfl⟩ := Option.map_eq_some_iff.mp hc
  exact ⟨(j, a.2), .leaf he hj, hrest⟩

theorem isCrossed_capture (hbody : IsCrossed p h body) (index : Nat) :
    IsCrossed p h (capture index body) := by
  rintro base next n a d ⟨hopen, hcode⟩ hat hpath
  rw [Program.hasCode_append, length_code, Program.hasCode_singleton] at hcode
  obtain ⟨m, rfl, c, hc, hpath⟩ := hpath.of_instr hopen (by simp) hat
  rw [Instr.successors_save, List.mem_singleton] at hc
  subst hc
  obtain ⟨b, hb, m', hm', hpath⟩ :=
    hbody (a := (a.1, a.2.store (2 * index) (some a.1))) hcode.1 hat hpath
  obtain ⟨m'', rfl, c, hc, hpath⟩ := hpath.of_instr hcode.2 (by simp) hat
  rw [Instr.successors_save, List.mem_singleton] at hc
  subst hc
  exact ⟨(b.1, b.2.store (2 * index + 1) (some b.1)), .capture hb, m'', by omega, hpath⟩

theorem isCrossed_choice {first second : ByteExpr} (hfirst : IsCrossed p h first)
    (hsecond : IsCrossed p h second) : IsCrossed p h (choice first second) := by
  rintro base next n a d ⟨hsplit, hcode⟩ hat hpath
  rw [Program.hasCode_append, length_code] at hcode
  have hloop : p.instrs[base]? = some (loop true (base + 1) (base + 1 + first.size)) := hsplit
  obtain ⟨m, hm, hpath | hpath⟩ := carriesIn_of_loop hloop hat hpath
  · obtain ⟨b, hb, m', hm', hpath⟩ := hfirst hcode.1 hat hpath
    exact ⟨b, .first hb, m', Nat.lt_trans hm' hm, hpath⟩
  · obtain ⟨b, hb, m', hm', hpath⟩ := hsecond hcode.2 hat hpath
    exact ⟨b, .second hb, m', Nat.lt_trans hm' hm, hpath⟩

theorem isCrossed_times (hbody : IsCrossed p h body) (more : Nat) :
    IsCrossed p h (times more body) := by
  intro base next n a d hcode hat hpath
  induction more generalizing base n a with
  | zero =>
    obtain ⟨b, hb, hrest⟩ := hbody hcode hat hpath
    exact ⟨b, .timesLast hb, hrest⟩
  | succ more ih =>
    simp only [code, timesCode, Program.hasCode_append, length_code] at hcode
    obtain ⟨b, hb, m, hm, hpath⟩ := hbody hcode.1 hat hpath
    obtain ⟨c, hc, m', hm', hpath⟩ := ih hcode.2 hpath
    exact ⟨c, .timesMore hb hc, m', Nat.lt_trans hm' hm, hpath⟩

theorem isCrossed_atMost (hbody : IsCrossed p h body) (more : Nat) (greedy : Bool) :
    IsCrossed p h (atMost more greedy body) := by
  intro base next n a d hcode hat hpath
  induction more generalizing base n a with
  | zero =>
    obtain ⟨hloop, hcode⟩ := hcode
    obtain ⟨m, hm, hpath | hpath⟩ := carriesIn_of_loop hloop hat hpath
    · obtain ⟨b, hb, m', hm', hpath⟩ := hbody hcode hat hpath
      exact ⟨b, .atMostLast hb, m', Nat.lt_trans hm' hm, hpath⟩
    · exact ⟨a, .atMostNone, m, hm, hpath⟩
  | succ more ih =>
    obtain ⟨hloop, hcode⟩ := hcode
    rw [Program.hasCode_append, length_code] at hcode
    obtain ⟨m, hm, hpath | hpath⟩ := carriesIn_of_loop hloop hat hpath
    · obtain ⟨b, hb, m', hm', hpath⟩ := hbody hcode.1 hat hpath
      obtain ⟨c, hc, m'', hm'', hpath⟩ := ih hcode.2 hpath
      exact ⟨c, .atMostMore hb hc, m'', by omega, hpath⟩
    · exact ⟨a, .atMostNone, m, hm, hpath⟩

theorem isCrossed_star (hbody : IsCrossed p h body) (greedy : Bool) :
    IsCrossed p h (star greedy body) := by
  rintro base next n a d ⟨hloop, hcode⟩ hat hpath
  -- By induction on the number of steps left, which every turn of the loop lowers.
  induction n using Nat.strongRecOn generalizing a with
  | ind n ih =>
    obtain ⟨m, hm, hpath | hpath⟩ := carriesIn_of_loop hloop hat hpath
    · obtain ⟨b, hb, m', hm', hpath⟩ := hbody hcode hat hpath
      obtain ⟨c, hc, m'', hm'', hpath⟩ := ih m' (by omega) hpath
      exact ⟨c, .starMore hb hc, m'', by omega, hpath⟩
    · exact ⟨a, .starNone, m, hm, hpath⟩

theorem isCrossed_plus (hbody : IsCrossed p h body) (greedy : Bool) :
    IsCrossed p h (plus greedy body) := by
  intro base next n a d hcode hat hpath
  rw [code, Program.hasCode_append, length_code, Program.hasCode_singleton] at hcode
  induction n using Nat.strongRecOn generalizing a with
  | ind n ih =>
    obtain ⟨b, hb, m, hm, hpath⟩ := hbody hcode.1 hat hpath
    obtain ⟨m', hm', hpath | hpath⟩ := carriesIn_of_loop hcode.2 hat hpath
    · obtain ⟨c, hc, m'', hm'', hpath⟩ := ih m' (by omega) hpath
      exact ⟨c, .plusMore hb hc, m'', by omega, hpath⟩
    · exact ⟨b, .plusLast hb, m', by omega, hpath⟩

end

/-- Every path to a match first crosses the block that it enters. -/
theorem exists_crosses_of_carriesIn (e : ByteExpr) : IsCrossed p h e := by
  induction e with
  | fail | bytes _ | char _ | look _ => exact isCrossed_leaf rfl
  | capture index body ih => exact isCrossed_capture ih index
  | seq first second ih₁ ih₂ =>
    intro base next n a d hcode hat hpath
    rw [code, Program.hasCode_append, length_code] at hcode
    obtain ⟨b, hb, m, hm, hpath⟩ := ih₁ hcode.1 hat hpath
    obtain ⟨c, hc, m', hm', hpath⟩ := ih₂ hcode.2 hat hpath
    exact ⟨c, .seq hb hc, m', Nat.lt_trans hm' hm, hpath⟩
  | choice first second ih₁ ih₂ => exact isCrossed_choice ih₁ ih₂
  | times more body ih => exact isCrossed_times ih more
  | atMost more greedy body ih => exact isCrossed_atMost ih more greedy
  | star greedy body ih => exact isCrossed_star ih greedy
  | plus greedy body ih => exact isCrossed_plus ih greedy

end ByteExpr

namespace Program

variable {h : ByteArray} {i : Nat}

theorem hasCode_programCode (longest : Bool) (e : Expr) :
    (ofExpr longest e).HasCode 0
        ((ByteExpr.capture 0 e.bytewise).code 0 (e.bytewise.size + 2)) ∧
      (ofExpr longest e).instrs[e.bytewise.size + 2]? = some .accept := by
  have hcode : (ofExpr longest e).HasCode 0 e.bytewise.programCode :=
    hasCode_of_append (List.nil_append _).symm
  rwa [ByteExpr.programCode, hasCode_append, ByteExpr.length_code, hasCode_singleton,
    ByteExpr.size, Nat.zero_add] at hcode

/-- A path from the first instruction to a match crosses the whole expression. -/
theorem crosses_of_carriesIn (longest : Bool) (e : Expr) {n : Nat} {a : Point} {d : Node × Slots}
    (hat : (ofExpr longest e).instrs[d.1.1]? = some .accept)
    (hpath : (ofExpr longest e).CarriesIn h n ((0, a.1), a.2) d) :
    (ByteExpr.capture 0 e.bytewise).Crosses h a (d.1.2, d.2) := by
  obtain ⟨hcode, haccept⟩ := hasCode_programCode longest e
  obtain ⟨b, hcrosses, m, -, hrest⟩ :=
    ByteExpr.exists_crosses_of_carriesIn (.capture 0 e.bytewise) hcode hat hpath
  obtain rfl := hrest.of_accept haccept
  exact hcrosses

/-- The program of an expression comes to a match where the expression does. -/
theorem reaches_accept_iff (longest : Bool) (e : Expr) {j : Nat} :
    (∃ k, (ofExpr longest e).Reaches h (0, i) (k, j) ∧
      (ofExpr longest e).instrs[k]? = some .accept) ↔ e.bytewise.Spans h i j := by
  constructor
  · rintro ⟨k, hreach, hat⟩
    obtain ⟨n, s, hpath⟩ := exists_carriesIn_of_reaches hreach (Slots.blank 0)
    have hcrosses := crosses_of_carriesIn longest e (a := (i, Slots.blank 0)) hat hpath
    exact hcrosses.spans
  · intro hspans
    obtain ⟨hcode, haccept⟩ := hasCode_programCode longest e
    have hcapture : (ByteExpr.capture 0 e.bytewise).Spans h i j := hspans
    exact ⟨_, ByteExpr.reaches_of_spans (.capture 0 e.bytewise) hcode hcapture, haccept⟩

end Program
end LinearRegex
