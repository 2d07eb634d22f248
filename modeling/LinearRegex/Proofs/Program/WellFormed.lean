import LinearRegex.Proofs.Program.Automaton
import LinearRegex.Proofs.Program.Regular

/-!
# Programs are well formed

A program that has been compiled from a pattern holds together: nothing in it leads to an
instruction that is not there or back to the first one, it ends with the only match, its slots are
those of the groups of the pattern, and its transitions do not overlap
(`Program.isWellFormed_of_compile`).  On the way to it every hole has been patched in an instruction
that has it.
-/

namespace LinearRegex
namespace ByteExpr

/-! ## Transitions -/

/-- Wherever the block of the expression stands, the transitions in it do not overlap. -/
def IsApart (e : ByteExpr) : Prop :=
  ∀ base next, ∀ i ∈ e.code base next, i.isConsuming → Transition.AreApart i.transitions

theorem areApart_singleton {t : Transition} (ht : t.lo ≤ t.hi) : Transition.AreApart [t] where
  ne_nil := List.cons_ne_nil t []
  lo_le_hi := List.forall_mem_singleton.mpr ht
  ascend := List.pairwise_singleton _ t

theorem not_isConsuming_loop (greedy : Bool) (body next : Nat) :
    ¬ (loop greedy body next).isConsuming := by
  cases greedy <;> exact Bool.false_ne_true

theorem isApart_bytes (bs : List UInt8) : (bytes bs).IsApart := by
  intro base next i hi hconsuming
  unfold code at hi
  fun_induction bytesCode base next bs with
  | case1 =>
    rw [List.mem_singleton] at hi
    subst hi
    cases hconsuming
  | case2 base b =>
    rw [List.mem_singleton] at hi
    subst hi
    exact areApart_singleton (UInt8.le_refl b)
  | case3 base b bs _ ih =>
    rcases List.mem_cons.mp hi with rfl | hi
    · exact areApart_singleton (UInt8.le_refl b)
    · exact ih hi

section Copies

variable {P : Instr → Prop} {size : Nat} {block : Nat → Nat → List Instr}

/-- The instructions of copies are those of the block. -/
theorem of_mem_timesCode (hblock : ∀ base next, ∀ i ∈ block base next, P i) {more base next : Nat}
    {i : Instr} (hi : i ∈ timesCode size block base next more) : P i := by
  induction more generalizing base with
  | zero => exact hblock base next i hi
  | succ more ih =>
    rcases List.mem_append.mp hi with hi | hi
    · exact hblock base (base + size) i hi
    · exact ih hi

theorem of_mem_atMostCode {greedy : Bool} (hloop : ∀ body next, P (loop greedy body next))
    (hblock : ∀ base next, ∀ i ∈ block base next, P i) {more base next : Nat} {i : Instr}
    (hi : i ∈ atMostCode greedy size block base next more) : P i := by
  induction more generalizing base with
  | zero =>
    rcases List.mem_cons.mp hi with rfl | hi
    · exact hloop (base + 1) next
    · exact hblock (base + 1) next i hi
  | succ more ih =>
    rw [atMostCode, List.mem_cons, List.mem_append] at hi
    rcases hi with rfl | hi | hi
    · exact hloop (base + 1) next
    · exact hblock (base + 1) (base + 1 + size) i hi
    · exact ih hi

end Copies

theorem isPervasive_isApart : IsPervasive IsApart where
  fail := by
    intro base next i hi hconsuming
    obtain rfl := List.mem_singleton.mp hi
    cases hconsuming
  empty := isApart_bytes []
  seq hfirst hsecond := by
    intro base next i hi
    rcases List.mem_append.mp hi with hi | hi
    · exact hfirst _ _ i hi
    · exact hsecond _ _ i hi
  choice hfirst hsecond := by
    intro base next i hi hconsuming
    rw [code, List.mem_cons, List.mem_append] at hi
    rcases hi with rfl | hi | hi
    · cases hconsuming
    · exact hfirst _ _ i hi hconsuming
    · exact hsecond _ _ i hi hconsuming
  times hbody := by
    intro base next i hi
    exact of_mem_timesCode hbody hi
  atMost hbody := by
    intro base next i hi
    refine of_mem_atMostCode ?_ hbody hi
    intro inside outside hconsuming
    exact absurd hconsuming (not_isConsuming_loop _ inside outside)
  bytes chars := isApart_bytes (Utf8.encodeAll chars)
  char hs hne := by
    intro base next i hi _
    have hordered := (ByteTrie.ofSet_spec hs).1
    exact (ByteTrie.areApart_of_mem_code hordered (Assembly.ofSet_ne_nil hs hne) hi).2
  look l := by
    intro base next i hi hconsuming
    obtain rfl := List.mem_singleton.mp hi
    cases hconsuming
  capture _ hbody := by
    intro base next i hi hconsuming
    rw [code, List.mem_cons, List.mem_append, List.mem_singleton] at hi
    rcases hi with rfl | hi | rfl
    · cases hconsuming
    · exact hbody _ _ i hi hconsuming
    · cases hconsuming
  star hbody := by
    intro base next i hi hconsuming
    rcases List.mem_cons.mp hi with rfl | hi
    · exact absurd hconsuming (not_isConsuming_loop _ _ _)
    · exact hbody _ _ i hi hconsuming
  plus hbody := by
    intro base next i hi hconsuming
    rcases List.mem_append.mp hi with hi | hi
    · exact hbody _ _ i hi hconsuming
    · obtain rfl := List.mem_singleton.mp hi
      exact absurd hconsuming (not_isConsuming_loop _ _ _)

end ByteExpr

/-! ## Groups -/

namespace Expr

mutual

/-- The largest number of a group is not exceeded in the program. -/
theorem le_of_mem_groups {n : Nat} :
    ∀ {e : Expr}, e.captureCount ≤ n → ∀ g ∈ e.bytewise.groups, g ≤ n
  | empty, _ => (ByteExpr.isInherited_groups (· ≤ n)).empty
  | literal chars false, _ => nofun
  | literal chars true, _ => by
    refine (ByteExpr.isInherited_groups (· ≤ n)).sequence ?_
    intro e he
    obtain ⟨c, -, rfl⟩ := List.mem_map.mp he
    exact (ByteExpr.isInherited_groups (· ≤ n)).ofSet nofun
  | charClass c, _ => (ByteExpr.isInherited_groups (· ≤ n)).ofSet nofun
  | look l, _ => nofun
  | repetition _ _ _ body, hle =>
    have hbody : ∀ g ∈ body.bytewise.groups, g ≤ n := le_of_mem_groups hle
    (ByteExpr.isInherited_groups (· ≤ n)).repeated hbody fun _ => ⟨hbody, hbody⟩
  | capture _ _ _, hle =>
    have hbounds := Nat.max_le.mp hle
    List.forall_mem_cons.mpr ⟨hbounds.1, le_of_mem_groups hbounds.2⟩
  | concat _, hle => (ByteExpr.isInherited_groups (· ≤ n)).sequence (forall_mem_groups_le hle)
  | alternation _, hle =>
    (ByteExpr.isInherited_groups (· ≤ n)).alternatives (forall_mem_groups_le hle)

theorem forall_mem_groups_le {n : Nat} :
    ∀ {es : List Expr}, captureCounts es ≤ n → ∀ e ∈ bytewiseAll es, ∀ g ∈ e.groups, g ≤ n
  | [], _ => List.forall_mem_nil _
  | _ :: _, hle =>
    have hbounds := Nat.max_le.mp hle
    List.forall_mem_cons.mpr ⟨le_of_mem_groups hbounds.1, forall_mem_groups_le hbounds.2⟩

end

end Expr

/-! ## Whole programs -/

namespace Program

/-- The program holds together, and has the slots of so many groups and of group 0. -/
structure IsWellFormed (p : Program) (groupCount : Nat) : Prop where
  /-- No target is left open, and every one is the index of an instruction. -/
  exits : ∀ (i : Nat) (instr : Instr), p.instrs[i]? = some instr →
    ∀ t ∈ instr.exits, t ≠ Assembly.pending ∧ t < p.size
  first : ∃ next : Nat, p.instrs[0]? = some (.save 0 next)
  /-- Nothing leads back to the first instruction. -/
  exits_first : ∀ (i : Nat) (instr : Instr), p.instrs[i]? = some instr → 0 ∉ instr.exits
  accept : ∀ i : Nat, p.instrs[i]? = some .accept ↔ i + 1 = p.size
  slotCount : p.slotCount = 2 * (groupCount + 1)
  save : ∀ i slot next : Nat, p.instrs[i]? = some (.save slot next) → slot < p.slotCount
  transitions : ∀ (i : Nat) (instr : Instr), p.instrs[i]? = some instr → instr.isConsuming →
    Transition.AreApart instr.transitions

variable {e : Expr} {i : Nat} {instr : Instr}

theorem accept_iff (longest : Bool) (e : Expr) (i : Nat) :
    (ofExpr longest e).instrs[i]? = some .accept ↔ i + 1 = (ofExpr longest e).size := by
  rw [instrs_ofExpr, size_ofExpr]
  constructor
  · intro hi
    rcases ByteExpr.programCode_cases hi with ⟨-, heq⟩ | ⟨-, -, hmem⟩ | ⟨-, heq⟩ | ⟨rfl, -⟩
    · cases heq
    · exact absurd rfl (ByteExpr.fits_of_mem_code hmem).ne_accept
    · cases heq
    · rfl
  · intro hi
    have hlt : i < e.bytewise.programCode.length := by
      rw [ByteExpr.length_programCode, ByteExpr.programSize]
      omega
    have hinstr := List.getElem?_eq_getElem hlt
    rcases ByteExpr.programCode_cases hinstr with ⟨heq, -⟩ | ⟨-, hle, -⟩ | ⟨heq, -⟩ | ⟨-, heq⟩
    · omega
    · omega
    · omega
    · rw [hinstr, heq]

/-- Every slot is the start or the end of a group. -/
theorem slot_lt {longest : Bool} {slot next : Nat}
    (hi : (ofExpr longest e).instrs[i]? = some (.save slot next)) :
    slot < (ofExpr longest e).slotCount := by
  have hcount : (ofExpr longest e).slotCount = 2 * (e.captureCount + 1) := rfl
  rw [instrs_ofExpr] at hi
  rcases ByteExpr.programCode_cases hi with ⟨-, heq⟩ | ⟨-, -, hmem⟩ | ⟨-, heq⟩ | ⟨-, heq⟩
  · cases heq
    omega
  · have hgroup := (ByteExpr.fits_of_mem_code hmem).group slot next rfl
    have hle := Expr.le_of_mem_groups (Nat.le_refl _) _ hgroup
    omega
  · cases heq
    omega
  · cases heq

theorem areApart_transitions {longest : Bool} (he : e.WellFormed)
    (hi : (ofExpr longest e).instrs[i]? = some instr) (hconsuming : instr.isConsuming) :
    Transition.AreApart instr.transitions := by
  rw [instrs_ofExpr] at hi
  rcases ByteExpr.programCode_cases hi with ⟨-, rfl⟩ | ⟨-, -, hmem⟩ | ⟨-, rfl⟩ | ⟨-, rfl⟩
  · cases hconsuming
  · exact Expr.forall_bytewise ByteExpr.isPervasive_isApart he _ _ instr hmem hconsuming
  · cases hconsuming
  · cases hconsuming

theorem isWellFormed_ofExpr (longest : Bool) (he : e.WellFormed)
    (hsize : (ofExpr longest e).size ≤ Assembly.pending) :
    (ofExpr longest e).IsWellFormed e.captureCount := by
  have hregular := regular_ofExpr longest he
  constructor
  case exits =>
    intro i instr hi t ht
    have hlt := (hregular.exits hi t ht).2
    exact ⟨Nat.ne_of_lt (Nat.lt_of_lt_of_le hlt hsize), hlt⟩
  case first => exact ⟨1, hregular.first⟩
  case exits_first =>
    intro i instr hi hzero
    exact Nat.lt_irrefl 0 (hregular.exits hi 0 hzero).1
  case accept => exact accept_iff longest e
  case slotCount => rfl
  case save =>
    intro i slot next hi
    exact slot_lt hi
  case transitions =>
    intro i instr hi hconsuming
    exact areApart_transitions he hi hconsuming

/-- Compiling a pattern patches no hole in an instruction without it, and what comes out is a
well-formed program. -/
theorem isWellFormed_of_compile {o : ParserOptions} {pattern : String}
    (hparse : Expr.parse o pattern = .ok e) (longest : Bool) (limit : UInt64) :
    (∀ hole, Assembly.emitProgram limit.toNat e.bytewise ≠ .error (.misfit hole)) ∧
      ∀ p, compile longest limit.toNat e = .ok p → p.IsWellFormed e.captureCount := by
  refine ⟨Assembly.emitProgram_ne_misfit limit.toNat e.bytewise, ?_⟩
  intro p hp
  have hfits : (ofExpr longest e).size ≤ limit.toNat := by
    rw [compile_eq] at hp
    split at hp
    · next hle => rwa [size_ofExpr]
    · cases hp
  obtain rfl := eq_ofExpr_of_compile hp
  apply isWellFormed_ofExpr longest (Expr.wellFormed_of_parse hparse)
  exact Nat.le_trans hfits (Nat.le_pred_of_lt limit.toNat_lt_size)

/-- A group within a loop. -/
theorem isWellFormed_repeatedGroup :
    Expr.parse {} "(a|b)*" = .ok Expr.repeatedGroup ∧
      ∃ p, compile false (100000 : UInt64).toNat Expr.repeatedGroup = .ok p ∧
        p.IsWellFormed 1 := by
  have hcompiled := isWellFormed_of_compile Expr.parse_repeatedGroup false 100000
  have hcompile : compile false (100000 : UInt64).toNat Expr.repeatedGroup =
      .ok (ofExpr false Expr.repeatedGroup) := by
    rw [compile_eq]
    exact if_pos (by decide)
  exact ⟨Expr.parse_repeatedGroup, _, hcompile, hcompiled.2 _ hcompile⟩

end Program
end LinearRegex
