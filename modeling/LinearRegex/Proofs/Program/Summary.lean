import LinearRegex.Program.Basic
import LinearRegex.Proofs.Program.Reach
import LinearRegex.Proofs.Traversal.Marks

/-!
# What the summaries promise

The summaries of a program are read off its instructions.  What they say holds of every path to a
match: its bytes begin with the literal prefix, a path of an anchored program begins at the start of
the haystack (`agrees_of_reaches`), and there is a first byte, which is one of the first bytes
(`exists_firstByte`).  A complete literal is also enough for a match (`exists_reaches_of_ends`).
-/

namespace LinearRegex

namespace LiteralPrefix

variable {h : ByteArray}

theorem lt_size_of_byte {pos : Nat} {b : UInt8} (hb : h[pos]? = some b) : pos < h.size := by
  by_contra hge
  rw [getElem?_neg h pos hge] at hb
  cases hb

theorem le_size_of_bytesAt {bs : List UInt8} {pos : Nat} (hat : bytesAt h pos bs) :
    pos + bs.length ≤ h.size := by
  induction bs generalizing pos with
  | nil => simpa [bytesAt] using hat
  | cons b bs ih =>
    rw [bytesAt, Bool.and_eq_true] at hat
    have := ih hat.2
    rw [List.length_cons]
    omega

theorem bytesAt_append {bs cs : List UInt8} {pos : Nat} :
    bytesAt h pos (bs ++ cs) ↔ bytesAt h pos bs ∧ bytesAt h (pos + bs.length) cs := by
  induction bs generalizing pos with
  | nil =>
    rw [List.nil_append, List.length_nil, Nat.add_zero, bytesAt, decide_eq_true_eq]
    refine (and_iff_right_of_imp fun hat => ?_).symm
    have := le_size_of_bytesAt hat
    omega
  | cons b bs ih =>
    rw [List.cons_append, bytesAt, bytesAt, Bool.and_eq_true, Bool.and_eq_true, ih, and_assoc,
      List.length_cons, Nat.add_right_comm, Nat.add_assoc pos]

theorem bytesAt_singleton {b : UInt8} {pos : Nat} : bytesAt h pos [b] ↔ h[pos]? = some b := by
  rw [bytesAt, bytesAt, Bool.and_eq_true, beq_iff_eq, decide_eq_true_eq, and_iff_left_iff_imp]
  exact lt_size_of_byte

end LiteralPrefix

namespace Summary

open LiteralPrefix (bytesAt)

/-- A match from `start` to `stop` is as the path shows. -/
structure Lead.Agrees (l : Lead) (h : ByteArray) (start stop : Nat) : Prop where
  bytes : bytesAt h start l.bytes.toList
  anchored : l.anchored → start = 0
  ends : l.ends → stop = start + l.bytes.size

theorem bytesAt_push {h : ByteArray} {start : Nat} {bytes : Array UInt8} {b : UInt8} :
    bytesAt h start (bytes.push b).toList ↔
      bytesAt h start bytes.toList ∧ h[start + bytes.size]? = some b := by
  rw [Array.toList_push, LiteralPrefix.bytesAt_append, LiteralPrefix.bytesAt_singleton,
    Array.length_toList]

/-- The path only ever gets longer. -/
theorem prefix_follow (instrs : Array Instr) (steps i : Nat) (l : Lead) :
    l.bytes.toList <+: (follow instrs steps i l).bytes.toList := by
  fun_induction follow instrs steps i l with
  | case2 _ _ _ _ _ _ ih | case3 _ _ _ _ _ ih | case4 _ _ _ _ _ _ ih => exact ih
  | case6 _ _ _ t _ _ ih =>
    rw [Array.toList_push] at ih
    exact (List.prefix_append _ [t.lo]).trans ih
  | case1 | case5 | case7 | case8 | case9 => exact List.prefix_rfl

theorem anchored_follow (instrs : Array Instr) (steps i : Nat) (l : Lead) (hl : l.anchored) :
    (follow instrs steps i l).anchored := by
  fun_induction follow instrs steps i l with
  | case1 | case5 | case7 | case8 | case9 => exact hl
  | case2 _ _ _ _ _ _ ih | case3 _ _ _ _ _ ih | case6 _ _ _ _ _ _ ih => exact ih hl
  | case4 _ _ _ _ _ _ ih => exact ih rfl

variable {p : Program} {h : ByteArray} {start : Nat} {c : Node}

/-- Every path to a match is as the only path from the start shows. -/
theorem agrees_of_reaches {steps i pos : Nat} {l : Lead} (hopen : l.ends = false)
    (hpos : pos = start + l.bytes.size) (hl : l.Agrees h start c.2)
    (hat : p.instrs[c.1]? = some .accept)
    (hreach : p.Reaches h (i, pos) c) : (follow p.instrs steps i l).Agrees h start c.2 := by
  fun_induction follow p.instrs steps i l generalizing pos with
  | case1 | case5 | case7 | case9 => exact hl
  | case2 _ _ l _ _ hi ih =>
    obtain ⟨d, hd, hrest⟩ := hreach.of_instr hi (by simp) hat
    rw [Instr.successors_save, List.mem_singleton] at hd
    subst hd
    exact ih hopen hpos ⟨hl.bytes, hl.anchored, hl.ends⟩ hrest
  | case3 _ _ l _ hi ih =>
    obtain ⟨d, hd, hrest⟩ := hreach.of_instr hi (by simp) hat
    rw [Instr.successors_nop, List.mem_singleton] at hd
    subst hd
    exact ih hopen hpos hl hrest
  | case4 _ _ l _ hi hempty ih =>
    obtain ⟨d, hd, hrest⟩ := hreach.of_instr hi (by simp) hat
    rw [Instr.successors_look] at hd
    split at hd
    · next hholds =>
      rw [List.mem_singleton] at hd
      subst hd
      have hzero : pos = 0 := by simpa [Look.holds] using hholds
      exact ih hopen hpos ⟨hl.bytes, fun _ => by omega, hl.ends⟩ hrest
    · cases hd
  | case6 _ _ l t hi heq ih =>
    obtain ⟨d, hd, hrest⟩ := hreach.of_instr hi (by simp) hat
    rw [Instr.successors_of_isConsuming rfl, Option.mem_toList, Option.map_eq_some_iff] at hd
    obtain ⟨next, hnext, rfl⟩ := hd
    rw [Instr.nextAt?, Option.bind_eq_some_iff] at hnext
    obtain ⟨b, hb, hnext⟩ := hnext
    obtain ⟨t', ht', hlo, hhi, rfl⟩ := Instr.exists_transition_of_next? hnext
    obtain rfl := List.mem_singleton.mp ht'
    have hbyte : b = t'.lo := UInt8.le_antisymm (heq ▸ hhi) hlo
    refine ih hopen (by rw [Array.size_push]; omega) ⟨?_, hl.anchored, ?_⟩ hrest
    · exact bytesAt_push.mpr ⟨hl.bytes, by rw [← hpos, hb, hbyte]⟩
    · exact fun hends => absurd hends (by simp [hopen])
  | case8 _ _ l hi =>
    rcases hreach.eq_or_exists with rfl | ⟨d, hd, -⟩
    · exact ⟨hl.bytes, hl.anchored, fun _ => hpos⟩
    · rw [Program.successors_of_instr hi, Instr.successors_accept] at hd
      cases hd

/-- Where the path from the start ends with a match, its bytes are enough for the match. -/
theorem exists_reaches_of_ends {steps i pos : Nat} {l : Lead} (hopen : l.ends = false)
    (hpos : pos = start + l.bytes.size) (hends : (follow p.instrs steps i l).ends)
    (hfree : (follow p.instrs steps i l).anchored = false)
    (hbytes : bytesAt h start (follow p.instrs steps i l).bytes.toList) :
    ∃ j, p.Reaches h (i, pos) (j, start + (follow p.instrs steps i l).bytes.size) ∧
      p.instrs[j]? = some .accept := by
  fun_induction follow p.instrs steps i l generalizing pos with
  | case1 | case5 | case7 | case9 =>
    rw [hopen] at hends
    cases hends
  | case2 _ _ l _ _ hi ih =>
    obtain ⟨j, hrest, hj⟩ := ih hopen hpos hends hfree hbytes
    exact ⟨j, .head ((Program.mem_successors_of_save hi).mpr rfl) hrest, hj⟩
  | case3 _ _ l _ hi ih =>
    obtain ⟨j, hrest, hj⟩ := ih hopen hpos hends hfree hbytes
    refine ⟨j, .head ?_ hrest, hj⟩
    rw [Program.successors_of_instr hi, Instr.successors_nop]
    exact List.mem_singleton_self _
  | case4 steps _ l next hi hempty ih =>
    rw [anchored_follow p.instrs steps next _ rfl] at hfree
    cases hfree
  | case6 steps _ l t hi heq ih =>
    have hnext : pos + 1 = start + (l.bytes.push t.lo).size := by
      rw [Array.size_push]
      omega
    obtain ⟨j, hrest, hj⟩ := ih hopen hnext hends hfree hbytes
    refine ⟨j, .head ?_ hrest, hj⟩
    obtain ⟨more, hmore⟩ :=
      prefix_follow p.instrs steps t.next { l with bytes := l.bytes.push t.lo }
    rw [← hmore, LiteralPrefix.bytesAt_append, bytesAt_push, ← hpos] at hbytes
    rw [Program.successors_of_instr hi, Instr.successors_of_isConsuming rfl, Instr.nextAt?,
      hbytes.1.2, Option.bind_some]
    simp [Instr.next?, Transition.accepts, heq]
  | case8 _ i l hi => exact ⟨i, by rw [hpos]; exact .refl _, hi⟩

/-! ## First bytes -/

/-- The graph of the instructions, by where they go on without consuming a byte. -/
def epsilon (instrs : Array Instr) : Exploration Nat Nat where
  key := id
  next i := (instrs[i]?.map Instr.targets).getD []
  succ i := (instrs[i]?.map Instr.targets).getD []
  map_key_next _ := List.map_id _

theorem next_epsilon {instrs : Array Instr} {i : Nat} {instr : Instr}
    (hi : instrs[i]? = some instr) : (epsilon instrs).next i = instr.targets := by
  simp [epsilon, hi]

theorem contains_addTransitions {ts : List Transition} {s : ByteSet} {b : UInt8} :
    (addTransitions s ts).contains b ↔ s.contains b ∨ ∃ t ∈ ts, t.lo ≤ b ∧ b ≤ t.hi := by
  induction ts generalizing s with
  | nil => simp [addTransitions]
  | cons t ts ih =>
    rw [addTransitions, List.foldl_cons, ← addTransitions, ih, ByteSet.addRange,
      ByteSet.contains_filter]
    simp [or_assoc]

/-- The instruction does not accept, and the set has all bytes that it consumes. -/
def IsCovered (bytes : ByteSet) (instr : Instr) : Prop :=
  instr ≠ .accept ∧ ∀ t ∈ instr.transitions, ∀ b, t.lo ≤ b → b ≤ t.hi → bytes.contains b

/-- The search for first bytes covers every instruction that it visits. -/
theorem firstBytesFrom?_eq_some {instrs : Array Instr} {stack : List Nat} {seen : Marks}
    {bytes all : ByteSet} (hall : firstBytesFrom? instrs stack seen bytes = some all) :
    (∀ b, bytes.contains b → all.contains b) ∧
      ∀ i ∈ (epsilon instrs).visits seen.freeSet stack, ∀ instr, instrs[i]? = some instr →
        IsCovered all instr := by
  fun_induction firstBytesFrom? instrs stack seen bytes with
  | case1 seen bytes =>
    cases hall
    exact ⟨fun _ hb => hb, by simp⟩
  | case2 => cases hall
  | case3 seen bytes i rest hfree instr hne hi ih =>
    obtain ⟨hmono, hvisits⟩ := ih hall
    have hmem : (epsilon instrs).key i ∈ seen.freeSet := Marks.mem_freeSet.mpr hfree
    rw [Exploration.visits_cons_of_mem _ hmem, next_epsilon hi]
    rw [Marks.freeSet_mark] at hvisits
    refine ⟨fun b hb => hmono b (contains_addTransitions.mpr (Or.inl hb)), ?_⟩
    refine List.forall_mem_cons.mpr ⟨fun instr' hi' => ?_, hvisits⟩
    obtain rfl := Option.some.inj (hi.symm.trans hi')
    exact ⟨hne, fun t ht b hlo hhi =>
      hmono b (contains_addTransitions.mpr (Or.inr ⟨t, ht, hlo, hhi⟩))⟩
  | case4 seen bytes i rest hfree hi ih =>
    obtain ⟨hmono, hvisits⟩ := ih hall
    have hmem : (epsilon instrs).key i ∈ seen.freeSet := Marks.mem_freeSet.mpr hfree
    have hnext : (epsilon instrs).next i = [] := by simp [epsilon, hi]
    rw [Exploration.visits_cons_of_mem _ hmem, hnext, List.nil_append]
    rw [Marks.freeSet_mark] at hvisits
    refine ⟨hmono, List.forall_mem_cons.mpr ⟨fun instr' hi' => ?_, hvisits⟩⟩
    rw [hi] at hi'
    cases hi'
  | case5 seen bytes i rest hfree ih =>
    have hmem : (epsilon instrs).key i ∉ seen.freeSet := mt Marks.mem_freeSet.mp hfree
    rw [Exploration.visits_cons_of_notMem _ hmem]
    exact ih hall

/-- A match is not empty if the first bytes are known, and begins with one of them. -/
theorem exists_firstByte {bytes : ByteSet} (hbytes : firstBytes? p.instrs = some bytes) {pos : Nat}
    (hat : p.instrs[c.1]? = some .accept) (hreach : p.Reaches h (0, pos) c) :
    pos < c.2 ∧ ∃ b, h[pos]? = some b ∧ bytes.contains b := by
  rw [firstBytes?] at hbytes
  obtain ⟨-, hvisits⟩ := firstBytesFrom?_eq_some hbytes
  rw [Marks.freeSet_blank] at hvisits
  have hcovered : ∀ i instr, i ∉ (epsilon p.instrs).unvisited (Finset.range p.instrs.size) [0] →
      p.instrs[i]? = some instr → IsCovered bytes instr := by
    intro i instr hi hinstr
    refine hvisits i ?_ instr hinstr
    by_contra hnot
    refine hi (Finset.mem_sdiff.mpr ⟨Finset.mem_range.mpr (Program.lt_size_of_instr hinstr), ?_⟩)
    intro hkey
    obtain ⟨j, hj, heq⟩ := (epsilon p.instrs).mem_keys.mp hkey
    exact hnot (heq ▸ hj)
  -- By induction on the path: what is reached without consuming a byte has been visited.
  have hstep : ∀ i, i ∉ (epsilon p.instrs).unvisited (Finset.range p.instrs.size) [0] →
      p.Reaches h (i, pos) c → pos < c.2 ∧ ∃ b, h[pos]? = some b ∧ bytes.contains b := by
    intro i hi hreach
    generalize hd : ((i, pos) : Node) = d at hreach
    induction hreach using Relation.ReflTransGen.head_induction_on generalizing i with
    | refl =>
      subst hd
      exact absurd rfl (hcovered i _ hi hat).1
    | head hfirst hrest ih =>
      subst hd
      obtain ⟨instr, hinstr⟩ := Program.exists_instr (Program.lt_size_of_mem_successors hfirst)
      rw [Program.successors_of_instr hinstr, Instr.successors, List.mem_append, List.mem_map,
        Option.mem_toList, Option.map_eq_some_iff] at hfirst
      rcases hfirst with ⟨t, ht, rfl⟩ | ⟨t, ht, rfl⟩
      · refine ih t ?_ rfl
        refine (epsilon p.instrs).notMem_unvisited_of_mem_succ
          (Finset.mem_range.mpr (Program.lt_size_of_instr hinstr)) hi ?_
        have hsucc : (epsilon p.instrs).succ i = instr.targets := next_epsilon hinstr
        rw [hsucc]
        exact Instr.targetsAt_subset ht
      · obtain ⟨b, hb, hnext⟩ := Option.bind_eq_some_iff.mp ht
        obtain ⟨tr, htr, hlo, hhi, -⟩ := Instr.exists_transition_of_next? hnext
        exact ⟨Program.Reaches.le hrest, b, hb, (hcovered i instr hi hinstr).2 tr htr b hlo hhi⟩
  exact hstep 0 (Exploration.notMem_unvisited_of_mem _ List.mem_cons_self) hreach

end Summary

namespace Program

/-- The summaries of a program are those of its instructions. -/
structure Summarized (p : Program) : Prop where
  anchored : p.anchored = (Summary.lead p.instrs).anchored
  literal : p.literalPrefix? = (Summary.lead p.instrs).literal?
  firstBytes : p.firstBytes? = Summary.firstBytes? p.instrs
  onePass : p.onePass? = OnePass.ofInstrs? p.instrs

theorem summarized_ofExpr (longest : Bool) (e : Expr) : (ofExpr longest e).Summarized :=
  ⟨rfl, rfl, rfl, rfl⟩

/-- Every match is as the only path from the start shows. -/
theorem lead_agrees {p : Program} {h : ByteArray} {start : Nat} {c : Node} (hstart : start ≤ h.size)
    (hat : p.instrs[c.1]? = some .accept) (hreach : p.Reaches h (0, start) c) :
    (Summary.lead p.instrs).Agrees h start c.2 := by
  refine Summary.agrees_of_reaches rfl rfl ⟨?_, ?_, ?_⟩ hat hreach
  · simpa [LiteralPrefix.bytesAt] using hstart
  · simp
  · simp

end Program
end LinearRegex
