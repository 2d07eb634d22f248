import LinearRegex.Proofs.Search.Unrolling

/-!
# The runs of stars and optional pluses

The program of `(?:x+)?` has a loop in front of `x` and one behind it, where that of `x*` has a
single one.  So it unrolls the program of `x*` (`unrolls_optionalPlus`), and what it has besides the
runs of that one are the runs that come to both loops at one position.  Such a run takes `x` over
nothing at the start of the match and then ends (`IsOptionalPlus.of_not_nodup`), while in `x*` it
has come back to where it has been.
-/

namespace LinearRegex

open ByteExpr (loop length_code)

namespace Expr

/-- The expression `x*`, or `x*?` if it is not greedy. -/
def star (greedy : Bool) (x : Expr) : Expr :=
  repetition 0 none greedy x

/-- The expression `(?:x+)?`, or `(?:x+?)??` if it is not greedy. -/
def optionalPlus (greedy : Bool) (x : Expr) : Expr :=
  repetition 0 (some 1) greedy (repetition 1 none greedy x)

end Expr

namespace ByteExpr

theorem programCode_star (greedy : Bool) (b : ByteExpr) :
    (star greedy b).programCode =
      .save 0 1 :: loop greedy 2 (b.size + 2) ::
        (b.code 2 1 ++ [.save 1 (b.size + 3), .accept]) := by
  simp [programCode, code, size, Nat.add_comm 1]

theorem programCode_atMost_plus (greedy : Bool) (b : ByteExpr) :
    (atMost 0 greedy (plus greedy b)).programCode =
      .save 0 1 :: loop greedy 2 (b.size + 3) ::
        (b.code 2 (b.size + 2) ++
          [loop greedy 2 (b.size + 3), .save 1 (b.size + 4), .accept]) := by
  simp [programCode, code, size, atMostCode, Nat.add_comm 1, Nat.add_comm 2]

end ByteExpr

namespace Program

/-- The instruction of `x*` that does what the one of `(?:x+)?` does, where `x` has `size`
instructions.  The loop behind `x` stands for the one in front of it. -/
def withoutCopy (size i : Nat) : Nat :=
  if i < size + 2 then i else if i = size + 2 then 1 else i - 1

theorem withoutCopy_of_lt {size i : Nat} (hi : i < size + 2) : withoutCopy size i = i :=
  if_pos hi

theorem withoutCopy_copy (size : Nat) : withoutCopy size (size + 2) = 1 := by
  rw [withoutCopy, if_neg (Nat.lt_irrefl _), if_pos rfl]

theorem withoutCopy_succ {size i : Nat} (hi : size + 2 ≤ i) : withoutCopy size (i + 1) = i := by
  rw [withoutCopy, if_neg (by omega), if_neg (by omega), Nat.add_sub_cancel]

/-- Nothing but the two loops is the same instruction of `x*`. -/
theorem eq_or_of_withoutCopy_eq {size i j : Nat} (heq : withoutCopy size i = withoutCopy size j) :
    i = j ∨ i = 1 ∧ j = size + 2 ∨ i = size + 2 ∧ j = 1 := by
  unfold withoutCopy at heq
  split at heq <;> split at heq <;> (try split at heq) <;> (try split at heq) <;> omega

theorem getElem?_programCode_star (greedy : Bool) (b : ByteExpr) (i : Nat) :
    (ByteExpr.star greedy b).programCode[withoutCopy b.size i]? =
      ((ByteExpr.atMost 0 greedy (.plus greedy b)).programCode[i]?).map
        (Instr.retarget (withoutCopy b.size)) := by
  have hloop : (loop greedy 2 (b.size + 3)).retarget (withoutCopy b.size) =
      loop greedy 2 (b.size + 2) := by
    rw [ByteExpr.retarget_loop, withoutCopy_of_lt (by have := b.size_pos; omega),
      withoutCopy_succ (Nat.le_refl _)]
  have hmoves : Moves (withoutCopy b.size) 2 2 b.size := fun k hk => withoutCopy_of_lt (by omega)
  have hbody : (b.code 2 (b.size + 2)).map (Instr.retarget (withoutCopy b.size)) = b.code 2 1 := by
    rw [b.map_retarget_code _ hmoves, withoutCopy_copy]
  rw [ByteExpr.programCode_star, ByteExpr.programCode_atMost_plus]
  rcases Nat.lt_or_ge i (b.size + 2) with hlt | hge
  · rw [withoutCopy_of_lt hlt]
    match i, hlt with
    | 0, _ => rfl
    | 1, _ => exact congrArg some hloop.symm
    | i + 2, hlt =>
      have hi : i < b.size := by omega
      rw [List.getElem?_cons_succ, List.getElem?_cons_succ, List.getElem?_cons_succ,
        List.getElem?_cons_succ, List.getElem?_append_left (by rwa [length_code]),
        List.getElem?_append_left (by rwa [length_code]), ← hbody, List.getElem?_map]
  · obtain ⟨i, rfl⟩ := Nat.exists_eq_add_of_le' hge
    have hbehind : ∀ (second : Instr) (next : Nat) (rest : List Instr) (j : Nat),
        (.save 0 1 :: second :: (b.code 2 next ++ rest))[j + (b.size + 2)]? = rest[j]? := by
      intro second next rest j
      rw [← Nat.add_assoc, List.getElem?_cons_succ, List.getElem?_cons_succ,
        List.getElem?_append_right (by rw [length_code]; omega), length_code, Nat.add_sub_cancel]
    rw [hbehind]
    match i with
    | 0 =>
      rw [Nat.zero_add, withoutCopy_copy]
      exact congrArg some hloop.symm
    | i + 1 =>
      rw [Nat.add_right_comm, withoutCopy_succ (Nat.le_add_left _ _), hbehind]
      match i with
      | 0 =>
        have hleave : withoutCopy b.size (b.size + 4) = b.size + 3 := withoutCopy_succ (by omega)
        exact congrArg (some <| Instr.save 1 ·) hleave.symm
      | 1 => rfl
      | _ + 2 => rfl

/-- The program of `(?:x+)?` unrolls that of `x*`. -/
theorem unrolls_optionalPlus (longest greedy : Bool) (x : Expr) :
    (ofExpr longest (.optionalPlus greedy x)).Unrolls (ofExpr longest (.star greedy x))
      (withoutCopy x.bytewise.size) where
  instrs i := by
    rw [instrs_ofExpr, instrs_ofExpr]
    exact getElem?_programCode_star greedy x.bytewise i
  first := withoutCopy_of_lt (Nat.succ_pos _)
  longest := rfl
  groupCount := rfl

/-- The program is that of `(?:x+)?`, where the code of `x` is that of `b`. -/
structure IsOptionalPlus (q : Program) (greedy : Bool) (b : ByteExpr) : Prop where
  first : q.instrs[0]? = some (.save 0 1)
  front : q.instrs[1]? = some (loop greedy 2 (b.size + 3))
  body : q.HasCode 2 (b.code 2 (b.size + 2))
  behind : q.instrs[b.size + 2]? = some (loop greedy 2 (b.size + 3))
  leave : q.instrs[b.size + 3]? = some (.save 1 (b.size + 4))
  accept : q.instrs[b.size + 4]? = some .accept
  /-- Nothing but the first instruction leads to the loop in front. -/
  exits : ∀ {i : Nat} {instr : Instr}, 0 < i → q.instrs[i]? = some instr →
    ∀ t ∈ instr.exits, 1 < t

theorem isOptionalPlus_ofExpr (longest greedy : Bool) (x : Expr) :
    (ofExpr longest (.optionalPlus greedy x)).IsOptionalPlus greedy x.bytewise := by
  have hcode : (ofExpr longest (.optionalPlus greedy x)).HasCode 0
      (ByteExpr.atMost 0 greedy (.plus greedy x.bytewise)).programCode :=
    hasCode_of_append (List.nil_append _).symm
  rw [ByteExpr.programCode_atMost_plus] at hcode
  obtain ⟨hfirst, hfront, hcode⟩ := hcode
  rw [hasCode_append, length_code] at hcode
  obtain ⟨hbody, hbehind, hleave, haccept, -⟩ := hcode
  rw [Nat.add_comm 2] at hbehind hleave haccept
  refine ⟨hfirst, hfront, hbody, hbehind, hleave, haccept, fun {i instr} hi hinstr t ht => ?_⟩
  rw [instrs_ofExpr] at hinstr
  have hsize := (Expr.optionalPlus greedy x).bytewise.size_pos
  rcases ByteExpr.programCode_cases hinstr with ⟨rfl, -⟩ | ⟨-, -, hmem⟩ | ⟨-, rfl⟩ | ⟨-, rfl⟩
  · exact absurd hi (Nat.lt_irrefl 0)
  · have hfits : instr.Fits 2 (x.bytewise.size + 1)
        (1 + (Expr.optionalPlus greedy x).bytewise.size) x.bytewise.groups := by
      rcases List.mem_cons.mp hmem with rfl | hmem
      · exact ByteExpr.fits_loop greedy _ ⟨Nat.le_refl 2, by omega⟩
      · exact ByteExpr.fits_of_mem_code (e := .plus greedy x.bytewise) hmem
    have := hfits.exits t ht
    omega
  · obtain rfl := List.mem_singleton.mp ht
    omega
  · cases ht

namespace IsOptionalPlus

variable {q : Program} {greedy : Bool} {b : ByteExpr} {input : Input} {start : Nat}
  {path : List Node} (hq : q.IsOptionalPlus greedy b)

include hq

/-- A path that has left the first instruction does not come to the loop in front of `x` again. -/
theorem one_lt_of_isChain {h : ByteArray} {c : Node} (hc : 0 < c.1)
    (hchain : (c :: path).IsChain fun c d => d ∈ q.successors h c) : ∀ d ∈ path, 1 < d.1 := by
  induction path generalizing c with
  | nil => exact List.forall_mem_nil _
  | cons d path ih =>
    obtain ⟨hd, hchain⟩ := List.isChain_cons_cons.mp hchain
    obtain ⟨instr, hinstr, hexit, -⟩ := exists_exit_of_mem_successors hd
    have hlt : 1 < d.1 := hq.exits hc hinstr d.1 hexit
    exact List.forall_mem_cons.mpr ⟨hlt, ih (Nat.lt_of_succ_lt hlt) hchain⟩

/-- A run begins with the start of group 0 and the loop in front of `x`. -/
theorem exists_eq_cons (hrun : q.IsRun input start path) :
    ∃ rest, path = (0, start) :: (1, start) :: rest ∧ ∀ d ∈ rest, 1 < d.1 := by
  obtain ⟨rest, rfl⟩ := List.head?_eq_some_iff.mp hrun.head
  obtain ⟨last, hlast, haccepts⟩ := hrun.accepts
  cases rest with
  | nil =>
    obtain rfl : (0, start) = last := Option.some.inj hlast
    cases hq.first.symm.trans (instr_of_accepts haccepts)
  | cons c rest =>
    obtain ⟨hc, hchain⟩ := List.isChain_cons_cons.mp hrun.chain
    obtain rfl := (mem_successors_of_save hq.first).mp hc
    exact ⟨rest, rfl, hq.one_lt_of_isChain Nat.one_pos hchain⟩

/-- A run that is none of `x*` comes to the loop behind `x` at the start of the match. -/
theorem behind_mem_of_not_nodup (hrun : q.IsRun input start path)
    (hnot : ¬ (path.map (Prod.map (withoutCopy b.size) id)).Nodup) :
    (b.size + 2, start) ∈ path := by
  obtain ⟨rest, rfl, hrest⟩ := hq.exists_eq_cons hrun
  have hfront : ∀ c ∈ (0, start) :: (1, start) :: rest, c.1 = 1 → c.2 = start := by
    intro c hc hone
    rcases List.mem_cons.mp hc with rfl | hc
    · rfl
    · rcases List.mem_cons.mp hc with rfl | hc
      · rfl
      · exact absurd (hrest c hc) (by omega)
  by_contra hbehind
  -- Two nodes that become one stand at the two loops, and the one in front is at the start.
  refine hnot (hrun.nodup.map_on fun c hc d hd heq => ?_)
  obtain ⟨hfst, hsnd⟩ := Prod.ext_iff.mp heq
  have hpos : c.2 = d.2 := hsnd
  rcases eq_or_of_withoutCopy_eq hfst with hindex | ⟨hone, hcopy⟩ | ⟨hcopy, hone⟩
  · exact Prod.ext hindex hpos
  · have hd' : d = (b.size + 2, start) := Prod.ext hcopy (hpos.symm.trans (hfront c hc hone))
    exact absurd (hd' ▸ hd) hbehind
  · have hc' : c = (b.size + 2, start) := Prod.ext hcopy (hpos.trans (hfront d hd hone))
    exact absurd (hc' ▸ hc) hbehind

/-- A path that leaves the loops has come to the match. -/
theorem eq_of_leave {j : Nat}
    (hchain : ((b.size + 3, j) :: path).IsChain fun c d => d ∈ q.successors input.haystack c)
    (haccepts : ∃ c, ((b.size + 3, j) :: path).getLast? = some c ∧ q.accepts input c) :
    path = [(b.size + 4, j)] ∧ q.accepts input (b.size + 4, j) := by
  obtain ⟨last, hlast, haccepts⟩ := haccepts
  cases path with
  | nil =>
    obtain rfl : (b.size + 3, j) = last := Option.some.inj hlast
    cases hq.leave.symm.trans (instr_of_accepts haccepts)
  | cons c rest =>
    obtain ⟨hc, hchain⟩ := List.isChain_cons_cons.mp hchain
    obtain rfl := (mem_successors_of_save hq.leave).mp hc
    cases rest with
    | nil =>
      obtain rfl : (b.size + 4, j) = last := Option.some.inj hlast
      exact ⟨rfl, haccepts⟩
    | cons d rest =>
      obtain ⟨hd, -⟩ := List.isChain_cons_cons.mp hchain
      rw [successors_of_instr hq.accept, Instr.successors_accept] at hd
      cases hd

/-- A path that does not take `x` again from the loop behind it leaves the loops. -/
theorem eq_of_behind {j : Nat}
    (hchain : ((b.size + 2, j) :: path).IsChain fun c d => d ∈ q.successors input.haystack c)
    (haccepts : ∃ c, ((b.size + 2, j) :: path).getLast? = some c ∧ q.accepts input c)
    (hnot : (2, j) ∉ path) :
    path = [(b.size + 3, j), (b.size + 4, j)] ∧ q.accepts input (b.size + 4, j) := by
  cases path with
  | nil =>
    obtain ⟨last, hlast, haccepts⟩ := haccepts
    obtain rfl : (b.size + 2, j) = last := Option.some.inj hlast
    have hloop := hq.behind.symm.trans (instr_of_accepts haccepts)
    exact absurd (Option.some.inj hloop) (ByteExpr.loop_ne_accept _ _ _)
  | cons c rest =>
    obtain ⟨hc, hchain⟩ := List.isChain_cons_cons.mp hchain
    rw [List.getLast?_cons_cons] at haccepts
    rw [successors_of_instr hq.behind, ByteExpr.mem_successors_loop] at hc
    rcases hc with rfl | rfl
    · exact absurd List.mem_cons_self hnot
    · obtain ⟨rfl, hlast⟩ := hq.eq_of_leave hchain haccepts
      exact ⟨rfl, hlast⟩

/-- Where a path takes `x` without going on in the haystack, `x` matches the empty text. -/
theorem spans_of_reaches {h : ByteArray} {i : Nat} (hi : i ≤ h.size)
    (hreach : q.Reaches h (2, i) (b.size + 2, i)) : b.Spans h i i := by
  have hloop := ByteExpr.reaches_of_loop (h := h) (i := i) hq.behind
  have hleave : q.Reaches h (b.size + 3, i) (b.size + 4, i) :=
    .head ((mem_successors_of_save hq.leave).mpr rfl) (.refl _)
  -- From the loop the path can be led on to the match, so it crosses the code of `x` first.
  obtain ⟨n, s, hpath⟩ := exists_carriesIn_of_reaches ((hreach.trans hloop.2).trans hleave)
    (Slots.blank 0)
  obtain ⟨p, hcrosses, m, -, hrest⟩ :=
    b.exists_crosses_of_carriesIn (a := (i, Slots.blank 0)) hq.body hq.accept hpath
  have hspans : b.Spans h i p.1 := hcrosses.spans
  have hle : p.1 ≤ i := hrest.le
  obtain rfl : p.1 = i := Nat.le_antisymm hle (ByteExpr.le_of_spans hspans hi).1
  exact hspans

/-- A path that takes `x` once and comes to the loop behind it without going on leaves the loops. -/
theorem exists_turn {j : Nat}
    (hchain : ((2, j) :: path).IsChain fun c d => d ∈ q.successors input.haystack c)
    (haccepts : ∃ c, ((2, j) :: path).getLast? = some c ∧ q.accepts input c)
    (hnot : (2, j) ∉ path) (hbehind : (b.size + 2, j) ∈ path) :
    ∃ turn, path = turn ++ [(b.size + 2, j), (b.size + 3, j), (b.size + 4, j)] ∧
      q.accepts input (b.size + 4, j) := by
  obtain ⟨turn, rest, rfl⟩ := List.append_of_mem hbehind
  rw [← List.cons_append] at hchain haccepts
  rw [List.getLast?_append_cons] at haccepts
  have hrest : (2, j) ∉ rest := fun hagain => hnot (by simp [hagain])
  obtain ⟨rfl, hlast⟩ := hq.eq_of_behind (List.isChain_append.mp hchain).2.1 haccepts hrest
  exact ⟨turn, rfl, hlast⟩

/-- A run that is none of `x*` takes `x` over nothing at the start of the match and ends there. -/
theorem of_not_nodup (hsize : start ≤ input.haystack.size) (hrun : q.IsRun input start path)
    (hnot : ¬ (path.map (Prod.map (withoutCopy b.size) id)).Nodup) :
    b.Spans input.haystack start start ∧ stopOf path = start ∧
      (∃ rest, path = (0, start) :: (1, start) :: (2, start) :: rest) ∧
      q.accepts input (b.size + 4, start) := by
  have hmem := hq.behind_mem_of_not_nodup hrun hnot
  obtain ⟨rest, rfl, -⟩ := hq.exists_eq_cons hrun
  obtain ⟨-, hchain⟩ := List.isChain_cons_cons.mp hrun.chain
  have haccepts := hrun.accepts
  rw [List.getLast?_cons_cons] at haccepts
  cases rest with
  | nil => simp at hmem
  | cons c rest =>
    obtain ⟨hc, hchain⟩ := List.isChain_cons_cons.mp hchain
    rw [List.getLast?_cons_cons] at haccepts
    rw [successors_of_instr hq.front, ByteExpr.mem_successors_loop] at hc
    rcases hc with rfl | rfl
    · have hbehind : (b.size + 2, start) ∈ rest := by
        simpa [b.size_pos.ne'] using hmem
      have hspans := hq.spans_of_reaches hsize
        (reaches_of_isChain hchain (List.mem_cons_of_mem _ hbehind))
      have hnodup := hrun.nodup
      simp only [List.nodup_cons] at hnodup
      obtain ⟨turn, rfl, hlast⟩ := hq.exists_turn hchain haccepts hnodup.2.2.1 hbehind
      refine ⟨hspans, ?_, ⟨_, rfl⟩, hlast⟩
      rw [stopOf, List.getLast?_cons_cons, List.getLast?_cons_cons, ← List.cons_append,
        List.getLast?_append_cons]
      rfl
    · -- A path that passes `x` by does not come to the loop behind it.
      obtain ⟨rfl, -⟩ := hq.eq_of_leave hchain haccepts
      simp at hmem

end IsOptionalPlus

/-- If passing `x` by is preferred, the preferred run is one of `x*`. -/
theorem IsOptionalPlus.nodup_of_isPreferred {q : Program} {b : ByteExpr} {input : Input}
    {start : Nat} {path : List Node} (hq : q.IsOptionalPlus false b)
    (hsize : start ≤ input.haystack.size) (hpath : q.IsPreferred input start path) :
    (path.map (Prod.map (withoutCopy b.size) id)).Nodup := by
  by_contra hnot
  obtain ⟨-, hstop, ⟨rest, rfl⟩, haccepts⟩ := hq.of_not_nodup hsize hpath.isRun hnot
  have hskip : q.IsRun input start
      [(0, start), (1, start), (b.size + 3, start), (b.size + 4, start)] := by
    refine ⟨rfl, ?_, by simp, _, rfl, haccepts⟩
    simp only [List.isChain_cons_cons, List.isChain_singleton, and_true]
    refine ⟨(mem_successors_of_save hq.first).mpr rfl, ?_,
      (mem_successors_of_save hq.leave).mpr rfl⟩
    rw [successors_of_instr hq.front, ByteExpr.mem_successors_loop]
    exact Or.inr rfl
  have hfirst : q.choices [(0, start), (1, start), (b.size + 3, start), (b.size + 4, start)] <
      q.choices ((0, start) :: (1, start) :: (2, start) :: rest) := by
    simp only [choices, choice, hq.first, hq.front, loop, List.nil_append, List.singleton_append,
      Bool.false_eq_true, if_false, bne_self_eq_false]
    exact List.cons_lt_cons_iff.mpr (Or.inl (by simp))
  exact hpath.first _ hskip (fun _ => hstop.symm) hfirst

end Program
end LinearRegex
