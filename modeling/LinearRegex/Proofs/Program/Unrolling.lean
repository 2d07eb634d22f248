import LinearRegex.Proofs.Program.Regular

/-!
# Programs that differ in their names

Instructions name each other by index, so what they do does not depend on where they stand.  A block
that is moved remains the same but for the names (`ByteExpr.map_retarget_code`).  A program may also
hold several times what another one holds once, as when a loop is unrolled.  It goes on just as that
one does if its instructions are those of the other one but for the names (`Program.Unrolls`).
-/

namespace LinearRegex

open ByteExpr (bytesCode timesCode atMostCode loop length_code)

/-- The transition leads to the instruction that `f` names. -/
def Transition.retarget (f : Nat → Nat) (t : Transition) : Transition :=
  { t with next := f t.next }

/-- `f` moves the `size` instructions from `base` on to `base'`. -/
def Moves (f : Nat → Nat) (base base' size : Nat) : Prop :=
  ∀ k < size, f (base + k) = base' + k

variable {f : Nat → Nat} {h : ByteArray} {pos base base' size : Nat}

theorem Moves.first (hf : Moves f base base' size) (hsize : 0 < size) : f base = base' :=
  hf 0 hsize

theorem Moves.front (hf : Moves f base base' size) {n : Nat} (hle : n ≤ size) :
    Moves f base base' n :=
  fun k hk => hf k (Nat.lt_of_lt_of_le hk hle)

/-- A part of a block is moved with it. -/
theorem Moves.part (hf : Moves f base base' size) {offset n : Nat} (hle : offset + n ≤ size) :
    Moves f (base + offset) (base' + offset) n := by
  intro k hk
  rw [Nat.add_assoc, Nat.add_assoc]
  exact hf (offset + k) (by omega)

theorem Transition.find?_map_retarget (f : Nat → Nat) (ts : List Transition) (b : UInt8) :
    Transition.find? (ts.map (Transition.retarget f)) b = (Transition.find? ts b).map f := by
  induction ts with
  | nil => rfl
  | cons t ts ih =>
    simp only [List.map_cons, Transition.find?, Transition.retarget, ih]
    split
    · rfl
    · split <;> rfl

namespace Instr

/-- The instruction goes on at the instructions that `f` names. -/
def retarget (f : Nat → Nat) : Instr → Instr
  | byteRange t => byteRange (t.retarget f)
  | sparse ts => sparse (ts.map (Transition.retarget f))
  | split first second => split (f first) (f second)
  | save slot next => save slot (f next)
  | look l next => look l (f next)
  | nop next => nop (f next)
  | fail => fail
  | accept => accept

theorem retarget_eq_accept_iff {i : Instr} : i.retarget f = accept ↔ i = accept := by
  cases i <;> simp [retarget]

theorem store_retarget (i : Instr) (s : Slots) (pos : Nat) :
    (i.retarget f).store s pos = i.store s pos := by
  cases i <;> rfl

theorem targetsAt_retarget (i : Instr) (h : ByteArray) (pos : Nat) :
    (i.retarget f).targetsAt h pos = (i.targetsAt h pos).map f := by
  cases i with
  | look l next =>
    rw [retarget, targetsAt, targetsAt]
    split <;> rfl
  | _ => rfl

theorem next?_retarget (i : Instr) (b : UInt8) : (i.retarget f).next? b = (i.next? b).map f := by
  cases i with
  | byteRange t =>
    have haccepts : (t.retarget f).accepts b = t.accepts b := rfl
    rw [retarget, next?, next?, haccepts]
    split <;> rfl
  | sparse ts => exact Transition.find?_map_retarget f ts b
  | _ => rfl

theorem nextAt?_retarget (i : Instr) (h : ByteArray) (pos : Nat) :
    (i.retarget f).nextAt? h pos = (i.nextAt? h pos).map f := by
  rw [nextAt?, nextAt?, Option.map_bind]
  exact Option.bind_congr fun b _ => next?_retarget i b

/-- The nodes that follow are the same but for the names. -/
theorem successors_retarget (i : Instr) (h : ByteArray) (pos : Nat) :
    (i.retarget f).successors h pos = (i.successors h pos).map (Prod.map f id) := by
  rw [successors, successors, targetsAt_retarget, nextAt?_retarget, List.map_append, List.map_map,
    List.map_map]
  cases i.nextAt? h pos <;> rfl

end Instr

/-! ## Blocks -/

namespace ByteTrie

theorem retarget_consume (ts : List Transition) :
    (consume ts).retarget f = consume (ts.map (Transition.retarget f)) := by
  unfold consume
  split
  · rfl
  · next hne =>
    split
    · next t heq =>
      obtain ⟨t', rfl, -⟩ := List.map_eq_singleton_iff.mp heq
      exact absurd rfl (hne t')
    · rfl

theorem map_retarget_transitions (t : ByteTrie) (next : Nat) (hf : Moves f base base' t.inner) :
    (t.transitions next base).map (Transition.retarget f) = t.transitions (f next) base' := by
  induction t generalizing base base' with
  | nil => rfl
  | last r rest ih => exact congrArg _ (ih hf)
  | step r child rest _ ih =>
    rw [inner] at hf
    rw [transitions, transitions, List.map_cons, Transition.retarget, hf.first (by omega),
      ih (hf.part (by rw [ByteTrie.size]))]

theorem map_retarget_childrenCode (t : ByteTrie) (next : Nat) (hf : Moves f base base' t.inner) :
    (t.childrenCode next base).map (Instr.retarget f) = t.childrenCode (f next) base' := by
  induction t generalizing base base' with
  | nil => rfl
  | last r rest ih => exact ih hf
  | step r child rest ihChild ihRest =>
    rw [inner] at hf
    have hchild : Moves f (base + 1) (base' + 1) child.inner := hf.part (by omega)
    rw [childrenCode, childrenCode, List.map_cons, List.map_append, retarget_consume,
      map_retarget_transitions child next hchild, ihChild hchild,
      ihRest (hf.part (by rw [ByteTrie.size]))]

theorem map_retarget_code (t : ByteTrie) (next : Nat) (hf : Moves f base base' t.size) :
    (t.code base next).map (Instr.retarget f) = t.code base' (f next) := by
  have hinner : Moves f (base + 1) (base' + 1) t.inner := hf.part (Nat.le_refl _)
  rw [code, code, List.map_cons, retarget_consume, map_retarget_transitions t next hinner,
    map_retarget_childrenCode t next hinner]

end ByteTrie

namespace ByteExpr

theorem retarget_loop (greedy : Bool) (body next : Nat) :
    (loop greedy body next).retarget f = loop greedy (f body) (f next) := by
  cases greedy <;> rfl

theorem map_retarget_bytesCode (bs : List UInt8) (next : Nat)
    (hf : Moves f base base' (max 1 bs.length)) :
    (bytesCode base next bs).map (Instr.retarget f) = bytesCode base' (f next) bs := by
  induction bs generalizing base base' with
  | nil => rfl
  | cons b bs ih =>
    cases bs with
    | nil => rfl
    | cons c bs =>
      have hrest : Moves f (base + 1) (base' + 1) (max 1 (c :: bs).length) :=
        hf.part (by simp only [List.length_cons]; omega)
      have hfirst : f (base + 1) = base' + 1 := hrest.first (by simp)
      have hcons : ∀ base next, bytesCode base next (b :: c :: bs) =
          .byteRange ⟨b, b, base + 1⟩ :: bytesCode (base + 1) next (c :: bs) := fun _ _ => rfl
      rw [hcons, hcons, List.map_cons, ih hrest, Instr.retarget, Transition.retarget, hfirst]

section

variable {block : Nat → Nat → List Instr} (hpos : 0 < size)
  (hblock : ∀ {base base' : Nat} (next : Nat), Moves f base base' size →
    (block base next).map (Instr.retarget f) = block base' (f next))

include hpos hblock

theorem map_retarget_timesCode (more next : Nat) (hf : Moves f base base' ((more + 1) * size)) :
    (timesCode size block base next more).map (Instr.retarget f) =
      timesCode size block base' (f next) more := by
  induction more generalizing base base' with
  | zero => exact hblock next (by simpa using hf)
  | succ more ih =>
    rw [Nat.succ_mul] at hf
    have hrest : Moves f (base + size) (base' + size) ((more + 1) * size) := hf.part (by omega)
    rw [timesCode, timesCode, List.map_append, hblock _ (hf.front (Nat.le_add_left _ _)),
      hrest.first (Nat.mul_pos (Nat.succ_pos more) hpos), ih hrest]

theorem map_retarget_atMostCode (greedy : Bool) (more next : Nat)
    (hf : Moves f base base' ((more + 1) * (1 + size))) :
    (atMostCode greedy size block base next more).map (Instr.retarget f) =
      atMostCode greedy size block base' (f next) more := by
  induction more generalizing base base' with
  | zero =>
    have hbody : Moves f (base + 1) (base' + 1) size := hf.part (by omega)
    rw [atMostCode, atMostCode, List.map_cons, retarget_loop, hbody.first hpos, hblock next hbody]
  | succ more ih =>
    rw [Nat.succ_mul] at hf
    have hbody : Moves f (base + 1) (base' + 1) size := hf.part (by omega)
    have hrest : Moves f (base + 1 + size) (base' + 1 + size) ((more + 1) * (1 + size)) := by
      rw [Nat.add_assoc, Nat.add_assoc]
      exact hf.part (by omega)
    rw [atMostCode, atMostCode, List.map_cons, List.map_append, retarget_loop, hbody.first hpos,
      hblock _ hbody, hrest.first (Nat.mul_pos (Nat.succ_pos more) (by omega)), ih hrest]

end

/-- A block that is moved is the same but for the names. -/
theorem map_retarget_code (e : ByteExpr) (next : Nat) (hf : Moves f base base' e.size) :
    (e.code base next).map (Instr.retarget f) = e.code base' (f next) := by
  induction e generalizing base base' next with
  | fail | look _ => rfl
  | bytes bs => exact map_retarget_bytesCode bs next hf
  | char t => exact t.map_retarget_code next hf
  | capture index body ih =>
    rw [size] at hf
    have hbody : Moves f (base + 1) (base' + 1) body.size := hf.part (by omega)
    have hlast : f (base + 1 + body.size) = base' + 1 + body.size := by
      rw [Nat.add_assoc, Nat.add_assoc]
      exact hf (1 + body.size) (by omega)
    simp only [code, List.map_cons, List.map_append, List.map_nil, ih _ hbody, Instr.retarget,
      hbody.first body.size_pos, hlast]
  | seq first second ih₁ ih₂ =>
    rw [size] at hf
    have hfirst : Moves f base base' first.size := hf.front (Nat.le_add_right _ _)
    have hsecond : Moves f (base + first.size) (base' + first.size) second.size :=
      hf.part (Nat.le_refl _)
    rw [code, code, List.map_append, ih₁ _ hfirst, hsecond.first second.size_pos, ih₂ _ hsecond]
  | choice first second ih₁ ih₂ =>
    rw [size] at hf
    have hfirst : Moves f (base + 1) (base' + 1) first.size := hf.part (by omega)
    have hsecond : Moves f (base + 1 + first.size) (base' + 1 + first.size) second.size := by
      rw [Nat.add_assoc, Nat.add_assoc]
      exact hf.part (Nat.le_refl _)
    rw [code, code, List.map_cons, List.map_append, Instr.retarget, hfirst.first first.size_pos,
      hsecond.first second.size_pos, ih₁ _ hfirst, ih₂ _ hsecond]
  | times more body ih =>
    exact map_retarget_timesCode body.size_pos ih more next hf
  | atMost more greedy body ih =>
    exact map_retarget_atMostCode body.size_pos ih greedy more next hf
  | star greedy body ih =>
    rw [size] at hf
    have hbody : Moves f (base + 1) (base' + 1) body.size := hf.part (by omega)
    rw [code, code, List.map_cons, retarget_loop, hbody.first body.size_pos, ih _ hbody,
      hf.first (by omega)]
  | plus greedy body ih =>
    rw [size] at hf
    have hbody : Moves f base base' body.size := hf.front (Nat.le_succ _)
    rw [code, code, List.map_append, List.map_singleton, retarget_loop, ih _ hbody,
      hf body.size (by omega), hf.first (by omega)]

end ByteExpr

/-! ## Programs -/

namespace Program

/-- Every instruction of `q` is, but for its targets, the instruction of `p` that `f` names. -/
structure Unrolls (q p : Program) (f : Nat → Nat) : Prop where
  instrs : ∀ i, p.instrs[f i]? = (q.instrs[i]?).map (Instr.retarget f)
  first : f 0 = 0
  longest : q.longest = p.longest
  groupCount : q.groupCount = p.groupCount

namespace Unrolls

variable {p q : Program} {input : Input} (hq : q.Unrolls p f)

include hq

theorem accepts (c : Node) : p.accepts input (Prod.map f id c) = q.accepts input c := by
  rw [Program.accepts, Program.accepts, Prod.map_fst, Prod.map_snd, id_eq, hq.instrs]
  congr 1
  rw [Bool.eq_iff_iff, beq_iff_eq, beq_iff_eq, Option.map_eq_some_iff]
  simp only [Instr.retarget_eq_accept_iff, exists_eq_right]

theorem stored (c : Node) (s : Slots) : p.stored (Prod.map f id c) s = q.stored c s := by
  rw [Program.stored, Program.stored, Prod.map_fst, Prod.map_snd, id_eq, hq.instrs]
  cases q.instrs[c.1]? with
  | none => rfl
  | some i => exact i.store_retarget s c.2

theorem successors (h : ByteArray) (c : Node) :
    p.successors h (Prod.map f id c) = (q.successors h c).map (Prod.map f id) := by
  obtain ⟨i, pos⟩ := c
  have hinstr := hq.instrs i
  cases hi : q.instrs[i]? with
  | none =>
    rw [hi, Option.map_none] at hinstr
    simp [Program.successors, targetsAt, nextAt?, hi, hinstr]
  | some instr =>
    rw [hi, Option.map_some] at hinstr
    have hsuccessors : p.successors h (f i, pos) = (instr.retarget f).successors h pos :=
      successors_of_instr hinstr
    rw [successors_of_instr hi, ← Instr.successors_retarget, ← hsuccessors]
    rfl

end Unrolls
end Program
end LinearRegex
