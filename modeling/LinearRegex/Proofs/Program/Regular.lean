import LinearRegex.Proofs.Expr.Parts
import LinearRegex.Proofs.Program.Shape

/-!
# Programs of expressions

The program of an expression begins with the start of group 0, which is stored nowhere else, and
accepts right behind the end of group 0 (`regular_ofExpr`).  So the slots on a path say where the
path began and, once it has come to a match, where the match ends (`IsBegun.next`).
-/

namespace LinearRegex

theorem ByteExpr.isInherited_groups (P : Nat → Prop) :
    IsInherited fun e => ∀ g ∈ e.groups, P g where
  fail := nofun
  empty := nofun
  seq hfirst hsecond := List.forall_mem_append.mpr ⟨hfirst, hsecond⟩
  choice hfirst hsecond := List.forall_mem_append.mpr ⟨hfirst, hsecond⟩
  times hbody := hbody
  atMost hbody := hbody

theorem ByteExpr.isPervasive_groups : IsPervasive fun e => ∀ g ∈ e.groups, 0 < g where
  toIsInherited := isInherited_groups _
  bytes _ := nofun
  char _ _ := nofun
  look _ := nofun
  capture hindex hbody := List.forall_mem_cons.mpr ⟨hindex, hbody⟩
  star hbody := hbody
  plus hbody := hbody

/-- The groups of a pattern are numbered from 1 on. -/
theorem Expr.pos_of_mem_groups {e : Expr} (he : e.WellFormed) {g : Nat}
    (hg : g ∈ e.bytewise.groups) : 0 < g :=
  forall_bytewise ByteExpr.isPervasive_groups he g hg

/-! ## Whole programs -/

namespace ByteExpr

/-- What stands at a place of a program. -/
theorem programCode_cases {e : ByteExpr} {i : Nat} {instr : Instr}
    (hi : e.programCode[i]? = some instr) :
    i = 0 ∧ instr = .save 0 1 ∨
      0 < i ∧ i ≤ e.size ∧ instr ∈ e.code 1 (1 + e.size) ∨
      i = e.size + 1 ∧ instr = .save 1 (e.size + 2) ∨
      i = e.size + 2 ∧ instr = .accept := by
  have hlength := e.length_code 1 (1 + e.size)
  simp only [programCode, code, Nat.mul_zero, Nat.zero_add, List.cons_append, List.nil_append,
    List.append_assoc] at hi
  cases i with
  | zero =>
    rw [List.getElem?_cons_zero, Option.some.injEq] at hi
    exact Or.inl ⟨rfl, hi.symm⟩
  | succ i =>
    rw [List.getElem?_cons_succ, List.getElem?_append] at hi
    right
    split at hi
    · next hlt =>
      left
      exact ⟨Nat.succ_pos i, by omega, List.mem_of_getElem? hi⟩
    · next hge =>
      right
      have : i - (e.code 1 (1 + e.size)).length < 2 :=
        (List.getElem?_eq_some_iff.mp hi).1
      rcases (by omega : i = e.size ∨ i = e.size + 1) with rfl | rfl
      · rw [hlength, Nat.sub_self, List.getElem?_cons_zero, Option.some.injEq] at hi
        exact Or.inl ⟨rfl, hi.symm⟩
      · rw [hlength, Nat.add_sub_cancel_left, List.getElem?_cons_succ, List.getElem?_cons_zero,
          Option.some.injEq] at hi
        exact Or.inr ⟨rfl, hi.symm⟩

end ByteExpr

namespace Program

/-- The program begins with the start of group 0 and accepts behind the end of group 0, and its
splits are choices. -/
structure Regular (p : Program) : Prop where
  first : p.instrs[0]? = some (.save 0 1)
  /-- Nothing leads out of the program or back to its first instruction. -/
  exits : ∀ {i : Nat} {instr : Instr}, p.instrs[i]? = some instr →
    ∀ t ∈ instr.exits, 0 < t ∧ t < p.size
  start : ∀ {i after : Nat}, p.instrs[i]? = some (.save 0 after) → i = 0
  accept : ∀ {i : Nat} {instr : Instr}, p.instrs[i]? = some instr →
    ∀ t ∈ instr.exits, p.instrs[t]? = some .accept → instr = .save 1 t
  split : ∀ {i first second : Nat}, p.instrs[i]? = some (.split first second) → first ≠ second

theorem size_ofExpr (longest : Bool) (e : Expr) :
    (ofExpr longest e).size = e.bytewise.size + 3 :=
  List.size_toArray.trans e.bytewise.length_programCode

theorem instrs_ofExpr (longest : Bool) (e : Expr) (i : Nat) :
    (ofExpr longest e).instrs[i]? = e.bytewise.programCode[i]? :=
  List.getElem?_toArray

/-- The program of an expression that comes from a pattern is regular. -/
theorem regular_ofExpr (longest : Bool) {e : Expr} (he : e.WellFormed) :
    (ofExpr longest e).Regular := by
  have hpos := e.bytewise.size_pos
  have hsave : ∀ slot next : Nat, (Instr.save slot next).exits = [next] := fun _ _ => rfl
  have hfits : ∀ instr ∈ e.bytewise.code 1 (1 + e.bytewise.size),
      instr.Fits 1 e.bytewise.size (1 + e.bytewise.size) e.bytewise.groups :=
    fun instr hmem => ByteExpr.fits_of_mem_code hmem
  refine ⟨?_, fun {i instr} hi t ht => ?_, fun {i after} hi => ?_, fun {i instr} hi t ht hat => ?_,
    fun {i first second} hi hsame => ?_⟩
  · rw [instrs_ofExpr]
    rfl
  · rw [instrs_ofExpr] at hi
    rw [size_ofExpr]
    rcases ByteExpr.programCode_cases hi with
      ⟨-, rfl⟩ | ⟨-, -, hmem⟩ | ⟨-, rfl⟩ | ⟨-, rfl⟩
    · rw [hsave, List.mem_singleton] at ht
      omega
    · have := (hfits instr hmem).exits t ht
      omega
    · rw [hsave, List.mem_singleton] at ht
      omega
    · cases ht
  · rw [instrs_ofExpr] at hi
    rcases ByteExpr.programCode_cases hi with
      ⟨rfl, -⟩ | ⟨-, -, hmem⟩ | ⟨-, heq⟩ | ⟨-, heq⟩
    · rfl
    · have hgroup := (hfits _ hmem).group 0 after rfl
      exact absurd (Expr.pos_of_mem_groups he hgroup) (Nat.lt_irrefl 0)
    · cases heq
    · cases heq
  · rw [instrs_ofExpr] at hi hat
    have haccept : t = e.bytewise.size + 2 := by
      rcases ByteExpr.programCode_cases hat with
        ⟨-, heq⟩ | ⟨-, -, hmem⟩ | ⟨-, heq⟩ | ⟨heq, -⟩
      · cases heq
      · exact absurd rfl (hfits _ hmem).ne_accept
      · cases heq
      · exact heq
    rcases ByteExpr.programCode_cases hi with
      ⟨-, rfl⟩ | ⟨-, -, hmem⟩ | ⟨-, rfl⟩ | ⟨-, rfl⟩
    · rw [hsave, List.mem_singleton] at ht
      omega
    · have := (hfits instr hmem).exits t ht
      omega
    · rw [haccept]
    · cases ht
  · rw [instrs_ofExpr] at hi
    rcases ByteExpr.programCode_cases hi with
      ⟨-, heq⟩ | ⟨-, -, hmem⟩ | ⟨-, heq⟩ | ⟨-, heq⟩
    · cases heq
    · have := (hfits _ hmem).split first second rfl hsame
      omega
    · cases heq
    · cases heq

end Program

/-! ## Where a path began and where it ends -/

namespace Slots

variable {s : Slots}

@[simp] theorem size_store (s : Slots) (i : Nat) (offset : Option Nat) :
    (s.store i offset).size = s.size :=
  Array.size_setIfInBounds

@[simp] theorem size_blank (n : Nat) : (blank n).size = n :=
  Array.size_replicate

theorem offset?_blank (n i : Nat) : (blank n).offset? i = none := by
  rw [offset?, blank, Array.getElem?_replicate]
  split <;> rfl

theorem offset?_of_size_le {i : Nat} (hi : s.size ≤ i) : s.offset? i = none := by
  rw [offset?, getElem?_neg s i (Nat.not_lt.mpr hi)]
  rfl

theorem offset?_store_self {i : Nat} (hi : i < s.size) (offset : Option Nat) :
    (s.store i offset).offset? i = offset := by
  simp [offset?, store, hi]

theorem offset?_store_of_ne {i j : Nat} (hne : i ≠ j) (offset : Option Nat) :
    (s.store i offset).offset? j = s.offset? j := by
  simp [offset?, store, hne]

/-- Giving a slot the offset back that it had before undoes a store. -/
theorem store_store_offset? (s : Slots) (i : Nat) (offset : Option Nat) :
    (s.store i offset).store i (s.offset? i) = s := by
  rw [store, store, Array.setIfInBounds_setIfInBounds]
  refine Array.ext Array.size_setIfInBounds fun j hj hj' => ?_
  by_cases hij : i = j
  · subst hij
    simp [offset?, hj']
  · exact Array.getElem_setIfInBounds_ne hj' hij

end Slots

@[simp] theorem Instr.size_store (s : Slots) (pos : Nat) (instr : Instr) :
    (instr.store s pos).size = s.size := by
  cases instr <;> simp [Instr.store]

theorem Program.size_stored (p : Program) (c : Node) (s : Slots) :
    (p.stored c s).size = s.size := by
  unfold Program.stored
  split
  · exact Instr.size_store ..
  · rfl

/-- A path that began at `start` can have come to `c` with the slots `s`. -/
structure IsBegun (p : Program) (start : Nat) (c : Node) (s : Slots) : Prop where
  size : 2 ≤ s.size
  le : start ≤ c.2
  pos_eq : c.1 = 0 → c.2 = start
  offset_zero : c.1 ≠ 0 → s.offset? 0 = some start
  offset_one : p.instrs[c.1]? = some .accept → s.offset? 1 = some c.2

namespace IsBegun

variable {p : Program} {h : ByteArray} {start : Nat} {c d : Node} {s : Slots}

/-- A path begins with slots that hold nothing. -/
theorem blank (hp : p.Regular) {n : Nat} (hn : 2 ≤ n) (start : Nat) :
    IsBegun p start (0, start) (Slots.blank n) := by
  refine ⟨by simpa using hn, Nat.le_refl _, fun _ => rfl, fun hne => absurd rfl hne, fun hat => ?_⟩
  have := hp.first.symm.trans hat
  cases this

/-- Every step of a path keeps where it began, and a step to a match stores where it ends. -/
theorem next (hp : p.Regular) (hc : IsBegun p start c s) (hd : d ∈ p.successors h c) :
    IsBegun p start d (p.stored c s) := by
  obtain ⟨i, pos⟩ := c
  obtain ⟨j, pos'⟩ := d
  have hle := Program.le_of_mem_successors hd
  have hsize := p.size_stored (i, pos) s
  obtain ⟨instr, hi, hexit, hhere⟩ := Program.exists_exit_of_mem_successors hd
  dsimp only at hi hexit hhere
  have hpos := (hp.exits hi j hexit).1
  refine ⟨by rw [hsize]; exact hc.size, Nat.le_trans hc.le hle, ?_, fun _ => ?_, fun hat => ?_⟩
  · exact fun hzero => absurd hzero (Nat.ne_of_gt hpos)
  · by_cases hzero : i = 0
    · subst hzero
      obtain rfl := Option.some.inj (hp.first.symm.trans hi)
      rw [Program.stored_of_instr hi, Instr.store,
        Slots.offset?_store_self (by have := hc.size; omega)]
      exact congrArg some (hc.pos_eq rfl)
    · rw [Program.stored_of_instr hi, ← hc.offset_zero hzero]
      cases instr with
      | save slot after =>
        refine Slots.offset?_store_of_ne (fun heq => hzero ?_) _
        exact hp.start (heq ▸ hi)
      | _ => rfl
  · obtain rfl := hp.accept hi j hexit hat
    rw [Program.stored_of_instr hi, Instr.store,
      Slots.offset?_store_self (by have := hc.size; omega),
      hhere rfl]

theorem start_eq (hc : IsBegun p start c s) (hne : c.1 ≠ 0) : s.start = start := by
  rw [Slots.start, hc.offset_zero hne, Option.getD_some]

theorem stop_eq (hc : IsBegun p start c s) (hat : p.instrs[c.1]? = some .accept) :
    s.stop = c.2 := by
  rw [Slots.stop, hc.offset_one hat, Option.getD_some]

end IsBegun
end LinearRegex
