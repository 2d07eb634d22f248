import LinearRegex.Proofs.Search.Exits

/-!
# When a program is one-pass

The analysis of a program follows paths in depth, looks at one instruction after the other, and
gives up where it meets one again, finds a second end of the match, or finds a byte that is accepted
twice.  Giving up at the first such place is giving up for a reason that can be said without any
order: some instruction can be come to in two ways, or two of those that can be come to are in each
other's way (`IsUnambiguous`).  What is left of the analysis at some point succeeds exactly if there
is no such reason among what is left (`IsClear`).  The search for the instructions that bytes lead
to leaves none of them out (`isSome_ofInstrs?_iff`).  A program without choices is unambiguous
everywhere (`IsStraight.isUnambiguous`).
-/

namespace LinearRegex

/-- The instruction goes on with the byte. -/
def Instr.Accepts (instr : Instr) (b : UInt8) : Prop :=
  ∃ t ∈ instr.transitions, t.lo ≤ b ∧ b ≤ t.hi

namespace OnePass

/-! ## Ways that consume nothing -/

/-- A way that consumes nothing leads from one instruction to another, whether the assertions on it
hold or not.  At every instruction it takes the target with the number in the list. -/
inductive Leads (instrs : Array Instr) : Nat → List Nat → Nat → Prop
  | refl (i : Nat) : Leads instrs i [] i
  | step {i j k n : Nat} {ns : List Nat} {instr : Instr} (hi : instrs[i]? = some instr)
      (hn : instr.targets[n]? = some j) (h : Leads instrs j ns k) : Leads instrs i (n :: ns) k

/-- Some way leads from one instruction to the other. -/
def ComesTo (instrs : Array Instr) (i j : Nat) : Prop :=
  ∃ ns, Leads instrs i ns j

/-- The ways from an instruction come to every other one in one way at most, to one end of the match
at most, and to instructions that accept different bytes. -/
structure IsUnambiguous (instrs : Array Instr) (i : Nat) : Prop where
  once : ∀ {ns ns' : List Nat} {j : Nat}, Leads instrs i ns j → Leads instrs i ns' j → ns = ns'
  accept : ∀ {j j' : Nat}, ComesTo instrs i j → ComesTo instrs i j' →
    instrs[j]? = some .accept → instrs[j']? = some .accept → j = j'
  bytes : ∀ {j j' : Nat} {instr instr' : Instr} {b : UInt8},
    ComesTo instrs i j → ComesTo instrs i j' →
    instrs[j]? = some instr → instrs[j']? = some instr' →
    instr.Accepts b → instr'.Accepts b → j = j'

/-- A byte leads from one instruction to the other. -/
def LeadsByByte (instrs : Array Instr) (i j : Nat) : Prop :=
  ∃ instr, instrs[i]? = some instr ∧ ∃ t ∈ instr.transitions, t.next = j

/-- The first instruction, and those that a byte leads to behind a way that consumes nothing. -/
inductive IsState (instrs : Array Instr) : Nat → Prop
  | start : IsState instrs 0
  | next {i j k : Nat} (h : IsState instrs i) (hcomes : ComesTo instrs i j)
      (hbyte : LeadsByByte instrs j k) : IsState instrs k

variable {instrs : Array Instr} {i j k : Nat} {instr : Instr}

theorem ComesTo.refl (instrs : Array Instr) (i : Nat) : ComesTo instrs i i :=
  ⟨[], .refl i⟩

theorem ComesTo.head (hi : instrs[i]? = some instr) (hj : j ∈ instr.targets)
    (h : ComesTo instrs j k) : ComesTo instrs i k := by
  obtain ⟨n, hn⟩ := List.getElem?_of_mem hj
  obtain ⟨ns, h⟩ := h
  exact ⟨n :: ns, .step hi hn h⟩

theorem ComesTo.cases (hi : instrs[i]? = some instr) (h : ComesTo instrs i k) :
    k = i ∨ ∃ j ∈ instr.targets, ComesTo instrs j k := by
  obtain ⟨ns, h⟩ := h
  cases h with
  | refl => exact Or.inl rfl
  | step hi' hn h =>
    obtain rfl := Option.some.inj (hi.symm.trans hi')
    exact Or.inr ⟨_, List.mem_of_getElem? hn, _, h⟩

theorem ComesTo.trans (hij : ComesTo instrs i j) (hjk : ComesTo instrs j k) :
    ComesTo instrs i k := by
  obtain ⟨ns, hij⟩ := hij
  induction hij with
  | refl => exact hjk
  | step hi hn _ ih => exact .head hi (List.mem_of_getElem? hn) (ih hjk)

/-- Every instruction is come to in one way at most. -/
def IsOnce (instrs : Array Instr) (i : Nat) : Prop :=
  ∀ {ns ns' : List Nat} {j : Nat}, Leads instrs i ns j → Leads instrs i ns' j → ns = ns'

/-- No instruction is come to from both. -/
def IsApart (instrs : Array Instr) (i i' : Nat) : Prop :=
  ∀ j, ComesTo instrs i j → ¬ ComesTo instrs i' j

/-- The ways from an instruction are its own end and the ways from its targets. -/
theorem isOnce_iff (hi : instrs[i]? = some instr) :
    IsOnce instrs i ↔ instr.targets.Pairwise (IsApart instrs) ∧
      ∀ t ∈ instr.targets, IsOnce instrs t ∧ ¬ ComesTo instrs t i := by
  constructor
  · intro honce
    refine ⟨?_, ?_⟩
    · rw [List.pairwise_iff_getElem]
      rintro n m hn hm hlt j ⟨ns, h⟩ ⟨ns', h'⟩
      have heq := honce (.step hi (List.getElem?_eq_getElem hn) h)
        (.step hi (List.getElem?_eq_getElem hm) h')
      exact Nat.ne_of_lt hlt (List.cons.inj heq).1
    · intro t ht
      obtain ⟨n, hn⟩ := List.getElem?_of_mem ht
      refine ⟨fun h h' => ?_, ?_⟩
      · exact (List.cons.inj (honce (.step hi hn h) (.step hi hn h'))).2
      · rintro ⟨ns, h⟩
        exact List.cons_ne_nil n ns (honce (.step hi hn h) (.refl i))
  · rintro ⟨hpairwise, htargets⟩ ns ns' j h h'
    cases h with
    | refl =>
      cases h' with
      | refl => rfl
      | step hi' hn' h' =>
        obtain rfl := Option.some.inj (hi.symm.trans hi')
        exact absurd ⟨_, h'⟩ (htargets _ (List.mem_of_getElem? hn')).2
    | @step _ t _ n ns _ hi' hn h =>
      obtain rfl := Option.some.inj (hi.symm.trans hi')
      cases h' with
      | refl => exact absurd ⟨_, h⟩ (htargets _ (List.mem_of_getElem? hn)).2
      | @step _ t' _ n' ns' _ hi' hn' h' =>
        obtain rfl := Option.some.inj (hi.symm.trans hi')
        obtain ⟨hlt, rfl⟩ := List.getElem?_eq_some_iff.mp hn
        obtain ⟨hlt', rfl⟩ := List.getElem?_eq_some_iff.mp hn'
        rw [List.pairwise_iff_getElem] at hpairwise
        rcases Nat.lt_trichotomy n n' with hless | rfl | hless
        · exact absurd ⟨_, h'⟩ (hpairwise n n' hlt hlt' hless _ ⟨_, h⟩)
        · rw [(htargets _ (List.getElem_mem hlt)).1 h h']
        · exact absurd ⟨_, h⟩ (hpairwise n' n hlt' hlt hless _ ⟨_, h'⟩)

/-! ## Adding an exit -/

section

variable {exits exits' : Exits} {q : Path} {b : UInt8}

/-- The bytes that an instruction accepts, as the analysis collects them. -/
def bytesOf (instr : Instr) : ByteSet :=
  Summary.addTransitions ByteSet.empty instr.transitions

theorem contains_bytesOf : (bytesOf instr).contains b ↔ instr.Accepts b := by
  rw [bytesOf, Summary.contains_addTransitions, ByteSet.contains_empty]
  exact or_iff_right Bool.false_ne_true

theorem not_accepts_of_not_isConsuming (h : instr.isConsuming = false) (b : UInt8) :
    ¬ instr.Accepts b := by
  rintro ⟨t, ht, -⟩
  cases instr with
  | byteRange | sparse => cases h
  | _ => cases ht

theorem add?_of_isConsuming (h : instr.isConsuming) :
    exits.add? q instr =
      if exits.bytes.intersects (bytesOf instr) then none
      else some { exits with
        list := exits.list.push ⟨q, instr⟩
        bytes := exits.bytes.union (bytesOf instr) } := by
  cases instr with
  | byteRange | sparse => rfl
  | _ => cases h

theorem add?_of_not_isConsuming (h : instr.isConsuming = false) (hne : instr ≠ .accept) :
    exits.add? q instr = some exits := by
  cases instr with
  | byteRange | sparse => cases h
  | accept => exact absurd rfl hne
  | _ => rfl

theorem add?_accept :
    exits.add? q .accept =
      if exits.accepts then none
      else some { exits with list := exits.list.push ⟨q, .accept⟩, accepts := true } :=
  rfl

/-- What adding an instruction does: it adds its bytes, or the end of the match, or nothing. -/
theorem cases_of_add? (h : exits.add? q instr = some exits') :
    (instr.isConsuming ∧ exits'.bytes = exits.bytes.union (bytesOf instr) ∧
      exits'.accepts = exits.accepts) ∨
    (instr = .accept ∧ exits'.bytes = exits.bytes ∧ exits'.accepts) ∨
    (instr.isConsuming = false ∧ instr ≠ .accept ∧ exits' = exits) := by
  cases hconsuming : instr.isConsuming with
  | true =>
    rw [add?_of_isConsuming hconsuming] at h
    split at h
    · cases h
    · cases h
      exact Or.inl ⟨rfl, rfl, rfl⟩
  | false =>
    by_cases haccept : instr = .accept
    · rw [haccept, add?_accept] at h
      split at h
      · cases h
      · cases h
        exact Or.inr (Or.inl ⟨haccept, rfl, rfl⟩)
    · rw [add?_of_not_isConsuming hconsuming haccept] at h
      exact Or.inr (Or.inr ⟨rfl, haccept, (Option.some.inj h).symm⟩)

/-- The instruction is the way on with the byte, or, if none is given, to the end of the match. -/
def IsExitFor (instr : Instr) : Option UInt8 → Prop
  | none => instr = .accept
  | some b => instr.Accepts b

/-- There is a way on with the byte, or, if none is given, to the end of the match. -/
def Exits.HasExitFor (exits : Exits) : Option UInt8 → Prop
  | none => exits.accepts
  | some b => exits.bytes.contains b

theorem not_isExitFor (hconsuming : instr.isConsuming = false) (hne : instr ≠ .accept)
    (b? : Option UInt8) : ¬ IsExitFor instr b? := by
  cases b? with
  | none => exact hne
  | some b => exact not_accepts_of_not_isConsuming hconsuming b

/-- Adding an instruction adds what it is an exit for. -/
theorem hasExitFor_of_add? (h : exits.add? q instr = some exits') (b? : Option UInt8) :
    exits'.HasExitFor b? ↔ exits.HasExitFor b? ∨ IsExitFor instr b? := by
  rcases cases_of_add? h with ⟨hconsuming, hbytes, haccepts⟩ | ⟨rfl, hbytes, haccepts⟩ |
      ⟨hconsuming, hne, rfl⟩
  · cases b? with
    | none =>
      rw [Exits.HasExitFor, haccepts]
      exact (or_iff_left (Instr.ne_accept_of_isConsuming hconsuming)).symm
    | some b =>
      rw [Exits.HasExitFor, hbytes, ByteSet.contains_union, contains_bytesOf]
      exact Iff.rfl
  · cases b? with
    | none => exact iff_of_true haccepts (Or.inr rfl)
    | some b =>
      rw [Exits.HasExitFor, hbytes]
      exact (or_iff_left (not_accepts_of_not_isConsuming rfl b)).symm
  · exact (or_iff_left (not_isExitFor hconsuming hne b?)).symm

/-- An instruction is added unless there is already an exit for what it is one for. -/
theorem exists_add?_iff :
    (∃ exits', exits.add? q instr = some exits') ↔
      ∀ b?, IsExitFor instr b? → ¬ exits.HasExitFor b? := by
  cases hconsuming : instr.isConsuming with
  | true =>
    rw [add?_of_isConsuming hconsuming]
    constructor
    · rintro ⟨exits', hadd⟩ b? hexit hhas
      cases b? with
      | none => exact Instr.ne_accept_of_isConsuming hconsuming hexit
      | some b =>
        rw [if_pos (ByteSet.intersects_iff.mpr ⟨b, hhas, contains_bytesOf.mpr hexit⟩)] at hadd
        cases hadd
    · intro hfree
      have hdisjoint : ¬ exits.bytes.intersects (bytesOf instr) := by
        rw [ByteSet.intersects_iff]
        rintro ⟨b, hhas, hb⟩
        exact hfree (some b) (contains_bytesOf.mp hb) hhas
      rw [if_neg hdisjoint]
      exact ⟨_, rfl⟩
  | false =>
    by_cases haccept : instr = .accept
    · subst haccept
      rw [add?_accept]
      constructor
      · rintro ⟨exits', hadd⟩ b? hexit hhas
        cases b? with
        | none =>
          have haccepts : exits.accepts := hhas
          rw [if_pos haccepts] at hadd
          cases hadd
        | some b => exact not_accepts_of_not_isConsuming hconsuming b hexit
      · intro hfree
        have haccepts : ¬ exits.accepts := hfree none rfl
        rw [if_neg haccepts]
        exact ⟨_, rfl⟩
    · exact iff_of_true ⟨exits, add?_of_not_isConsuming hconsuming haccept⟩
        fun b? hexit => absurd hexit (not_isExitFor hconsuming haccept b?)

end

/-! ## What is left of the analysis -/

/-- Some instruction of the list leads to the other one. -/
def IsReached (instrs : Array Instr) (stack : List Nat) (j : Nat) : Prop :=
  ∃ i ∈ stack, ComesTo instrs i j

/-- Nothing that can still be come to is come to in two ways or has been met before, and its exits
are not in each other's way nor in that of those found before. -/
structure IsClear (instrs : Array Instr) (stack : List Nat) (seen : Marks) (exits : Exits) :
    Prop where
  once : ∀ i ∈ stack, IsOnce instrs i
  apart : stack.Pairwise (IsApart instrs)
  free : ∀ {j : Nat}, IsReached instrs stack j → seen.isFree j
  fresh : ∀ {j : Nat} {instr : Instr} {b? : Option UInt8}, IsReached instrs stack j →
    instrs[j]? = some instr → IsExitFor instr b? → ¬ exits.HasExitFor b?
  single : ∀ {j j' : Nat} {instr instr' : Instr} {b? : Option UInt8}, IsReached instrs stack j →
    IsReached instrs stack j' → instrs[j]? = some instr → instrs[j']? = some instr' →
    IsExitFor instr b? → IsExitFor instr' b? → j = j'

theorem not_isReached_nil (instrs : Array Instr) (j : Nat) : ¬ IsReached instrs [] j := by
  rintro ⟨i, hi, -⟩
  cases hi

theorem isClear_nil (instrs : Array Instr) (seen : Marks) (exits : Exits) :
    IsClear instrs [] seen exits where
  once := nofun
  apart := List.Pairwise.nil
  free hj := absurd hj (not_isReached_nil instrs _)
  fresh hj := absurd hj (not_isReached_nil instrs _)
  single hj := absurd hj (not_isReached_nil instrs _)

section

variable {seen : Marks} {exits exits' : Exits} {q : Path} {rest : List Nat}

/-- What a list leads to is its first instruction and what is left when that has been met. -/
theorem isReached_cons_iff (hi : instrs[i]? = some instr) :
    IsReached instrs (i :: rest) j ↔ j = i ∨ IsReached instrs (instr.targets ++ rest) j := by
  constructor
  · rintro ⟨k, hk, hcomes⟩
    rcases List.mem_cons.mp hk with rfl | hk
    · refine (hcomes.cases hi).imp_right ?_
      rintro ⟨t, ht, hcomes⟩
      exact ⟨t, List.mem_append_left _ ht, hcomes⟩
    · exact Or.inr ⟨k, List.mem_append_right _ hk, hcomes⟩
  · rintro (rfl | ⟨k, hk, hcomes⟩)
    · exact ⟨j, List.mem_cons_self, .refl instrs j⟩
    · rcases List.mem_append.mp hk with hk | hk
      · exact ⟨i, List.mem_cons_self, .head hi hk hcomes⟩
      · exact ⟨k, List.mem_cons_of_mem i hk, hcomes⟩

/-- Meeting an instruction keeps the way clear. -/
theorem IsClear.step (h : IsClear instrs (i :: rest) seen exits) (hi : instrs[i]? = some instr)
    (hadd : exits.add? q instr = some exits') :
    IsClear instrs (instr.targets ++ rest) (seen.mark i) exits' := by
  obtain ⟨honce, hrest⟩ := List.forall_mem_cons.mp h.once
  obtain ⟨hapart, hapartRest⟩ := List.pairwise_cons.mp h.apart
  obtain ⟨hpairwise, htargets⟩ := (isOnce_iff hi).mp honce
  have hreached : ∀ {j}, IsReached instrs (instr.targets ++ rest) j →
      IsReached instrs (i :: rest) j := fun hj => (isReached_cons_iff hi).mpr (Or.inr hj)
  have hself : IsReached instrs (i :: rest) i := ⟨i, List.mem_cons_self, .refl instrs i⟩
  have hne : ∀ {j}, IsReached instrs (instr.targets ++ rest) j → j ≠ i := by
    rintro j ⟨k, hk, hcomes⟩ rfl
    rcases List.mem_append.mp hk with hk | hk
    · exact (htargets k hk).2 hcomes
    · exact hapart k hk j (.refl instrs j) hcomes
  refine ⟨?_, ?_, ?_, ?_, ?_⟩
  · exact List.forall_mem_append.mpr ⟨fun t ht => (htargets t ht).1, hrest⟩
  · refine List.pairwise_append.mpr ⟨hpairwise, hapartRest, ?_⟩
    intro t ht k hk j hcomes
    exact hapart k hk j (.head hi ht hcomes)
  · intro j hj
    exact Marks.isFree_mark.mpr ⟨hne hj, h.free (hreached hj)⟩
  · intro j instr' b? hj hinstr hexit
    rw [hasExitFor_of_add? hadd, not_or]
    exact ⟨h.fresh (hreached hj) hinstr hexit,
      fun hexit' => hne hj (h.single (hreached hj) hself hinstr hi hexit hexit')⟩
  · exact fun hj hj' => h.single (hreached hj) (hreached hj')

/-- Where the way is clear after an instruction has been met, it was clear before. -/
theorem IsClear.of_step (hfree : seen.isFree i) (hi : instrs[i]? = some instr)
    (hadd : exits.add? q instr = some exits')
    (h : IsClear instrs (instr.targets ++ rest) (seen.mark i) exits') :
    IsClear instrs (i :: rest) seen exits := by
  obtain ⟨htargets, hrest⟩ := List.forall_mem_append.mp h.once
  obtain ⟨hpairwise, hapartRest, happend⟩ := List.pairwise_append.mp h.apart
  have hfresh := exists_add?_iff.mp ⟨exits', hadd⟩
  have hnot : ¬ IsReached instrs (instr.targets ++ rest) i :=
    fun hself => (Marks.isFree_mark.mp (h.free hself)).1 rfl
  have hcases : ∀ {j}, IsReached instrs (i :: rest) j →
      j = i ∨ IsReached instrs (instr.targets ++ rest) j := (isReached_cons_iff hi).mp
  have hafter : ∀ {j instr' b?}, IsReached instrs (instr.targets ++ rest) j →
      instrs[j]? = some instr' → IsExitFor instr' b? →
        ¬ exits.HasExitFor b? ∧ ¬ IsExitFor instr b? := by
    intro j instr' b? hj hinstr hexit
    rw [← not_or, ← hasExitFor_of_add? hadd]
    exact h.fresh hj hinstr hexit
  refine ⟨?_, ?_, ?_, ?_, ?_⟩
  · refine List.forall_mem_cons.mpr ⟨(isOnce_iff hi).mpr ⟨hpairwise, ?_⟩, hrest⟩
    intro t ht
    exact ⟨htargets t ht, fun hcomes => hnot ⟨t, List.mem_append_left _ ht, hcomes⟩⟩
  · refine List.pairwise_cons.mpr ⟨?_, hapartRest⟩
    intro k hk j hcomes hcomes'
    rcases hcomes.cases hi with rfl | ⟨t, ht, hcomes⟩
    · exact hnot ⟨k, List.mem_append_right _ hk, hcomes'⟩
    · exact happend t ht k hk j hcomes hcomes'
  · intro j hj
    rcases hcases hj with rfl | hj
    · exact hfree
    · exact (Marks.isFree_mark.mp (h.free hj)).2
  · intro j instr' b? hj hinstr hexit
    rcases hcases hj with rfl | hj
    · obtain rfl := Option.some.inj (hi.symm.trans hinstr)
      exact hfresh b? hexit
    · exact (hafter hj hinstr hexit).1
  · intro j j' instr₁ instr₂ b? hj hj' hinstr hinstr' hexit hexit'
    rcases hcases hj with rfl | hleft
    · obtain rfl := Option.some.inj (hi.symm.trans hinstr)
      rcases hcases hj' with rfl | hleft'
      · rfl
      · exact absurd hexit (hafter hleft' hinstr' hexit').2
    · rcases hcases hj' with rfl | hleft'
      · obtain rfl := Option.some.inj (hi.symm.trans hinstr')
        exact absurd hexit' (hafter hleft hinstr hexit).2
      · exact h.single hleft hleft' hinstr hinstr' hexit hexit'

end

/-- What is left of the analysis succeeds exactly if the way is clear. -/
theorem isSome_followPaths?_iff {stack : List Path} {seen : Marks} {exits : Exits}
    (hsize : seen.size = instrs.size) :
    (followPaths? instrs stack seen exits).isSome ↔
      IsClear instrs (stack.map (·.index)) seen exits := by
  have hself : ∀ (q : Path) (rest : List Path),
      IsReached instrs ((q :: rest).map (·.index)) q.index :=
    fun q rest => ⟨q.index, List.mem_cons_self, .refl instrs q.index⟩
  fun_induction followPaths? instrs stack seen exits with
  | case1 seen exits => exact iff_of_true rfl (isClear_nil instrs seen exits)
  | case2 seen exits q rest hfree hi =>
    have hlt : q.index < instrs.size := hsize ▸ Marks.lt_size_of_isFree hfree
    rw [getElem?_pos instrs q.index hlt] at hi
    cases hi
  | case3 seen exits q rest hfree instr hi hadd =>
    refine iff_of_false Bool.false_ne_true fun hclear => ?_
    obtain ⟨exits', hsome⟩ : ∃ exits', exits.add? q instr = some exits' :=
      exists_add?_iff.mpr fun b? hexit => hclear.fresh (hself q rest) hi hexit
    cases hadd.symm.trans hsome
  | case4 seen exits q rest hfree instr hi exits' hadd ih =>
    refine (ih ((Marks.size_mark ..).trans hsize)).trans ?_
    rw [List.map_append, map_index_continuations]
    exact ⟨fun hclear => hclear.of_step hfree hi hadd, fun hclear => hclear.step hi hadd⟩
  | case5 seen exits q rest hfree =>
    exact iff_of_false Bool.false_ne_true fun hclear => hfree (hclear.free (hself q rest))

/-- From the start of its ways, an instruction is looked at successfully exactly if it is
unambiguous, provided that all its ways stay in the program. -/
theorem isSome_exits?_iff (hinside : ∀ j, ComesTo instrs i j → j < instrs.size) :
    (exits? instrs i).isSome ↔ IsUnambiguous instrs i := by
  have hreached : ∀ {j}, IsReached instrs [i] j ↔ ComesTo instrs i j := by
    simp [IsReached]
  rw [exits?, Option.isSome_map, isSome_followPaths?_iff (Marks.size_blank _)]
  constructor
  · intro hclear
    refine ⟨hclear.once i List.mem_cons_self, ?_, ?_⟩
    · intro j j' hj hj' hinstr hinstr'
      have hexit : IsExitFor .accept none := rfl
      exact hclear.single (hreached.mpr hj) (hreached.mpr hj') hinstr hinstr' hexit hexit
    · intro j j' instr instr' b hj hj' hinstr hinstr' hb hb'
      have hexit : IsExitFor instr (some b) := hb
      exact hclear.single (hreached.mpr hj) (hreached.mpr hj') hinstr hinstr' hexit hb'
  · intro hunambiguous
    refine ⟨List.forall_mem_singleton.mpr hunambiguous.once, List.pairwise_singleton _ _, ?_, ?_,
      ?_⟩
    · exact fun hj => Marks.isFree_blank.mpr (hinside _ (hreached.mp hj))
    · intro j instr b? hj hinstr hexit hhas
      cases b? with
      | none => exact Bool.false_ne_true hhas
      | some b => exact Bool.false_ne_true ((ByteSet.contains_empty b).symm.trans hhas)
    · intro j j' instr instr' b? hj hj' hinstr hinstr' hexit hexit'
      cases b? with
      | none =>
        obtain rfl : instr = .accept := hexit
        obtain rfl : instr' = .accept := hexit'
        exact hunambiguous.accept (hreached.mp hj) (hreached.mp hj') hinstr hinstr'
      | some b =>
        exact hunambiguous.bytes (hreached.mp hj) (hreached.mp hj') hinstr hinstr' hexit hexit'

/-! ## The instructions that bytes lead to -/

theorem successors_append (es es' : List Exit) :
    successors (es ++ es') = successors es ++ successors es' :=
  List.flatMap_append

/-- An instruction that is no exit has no transitions. -/
theorem mem_successors_exitOf {q : Path} (hi : instrs[i]? = some instr) :
    k ∈ successors (exitOf q instr) ↔ LeadsByByte instrs i k := by
  have hbyte : LeadsByByte instrs i k ↔ k ∈ instr.transitions.map (·.next) := by
    simp [LeadsByByte, hi]
  rw [hbyte, exitOf]
  split
  · rw [successors, List.flatMap_singleton]
  · next hnot =>
    rw [not_or, Bool.not_eq_true] at hnot
    cases instr with
    | byteRange | sparse => cases hnot.2
    | _ => exact Iff.rfl

/-- The exits that are found lead where bytes lead from what can be come to. -/
theorem mem_successors_followPaths? {stack : List Path} {seen : Marks} {exits exits' : Exits}
    (h : followPaths? instrs stack seen exits = some exits') :
    k ∈ successors exits'.list.toList ↔ k ∈ successors exits.list.toList ∨
      ∃ j, IsReached instrs (stack.map (·.index)) j ∧ LeadsByByte instrs j k := by
  fun_induction followPaths? instrs stack seen exits with
  | case1 seen exits =>
    cases h
    refine (or_iff_left ?_).symm
    rintro ⟨j, hj, -⟩
    exact not_isReached_nil instrs j hj
  | case2 => cases h
  | case3 => cases h
  | case4 seen exits q rest hfree instr hi exits'' hadd ih =>
    rw [ih h, list_of_add? hadd, successors_append, List.mem_append, mem_successors_exitOf hi,
      List.map_append, map_index_continuations, List.map_cons, or_assoc]
    simp only [isReached_cons_iff hi, or_and_right, exists_or, exists_eq_left]
  | case5 => cases h

theorem mem_successors_exits? {es : List Exit} (h : exits? instrs i = some es) :
    k ∈ successors es ↔ ∃ j, ComesTo instrs i j ∧ LeadsByByte instrs j k := by
  obtain ⟨exits, hfollow, rfl⟩ := Option.map_eq_some_iff.mp h
  rw [mem_successors_followPaths? hfollow]
  simp [successors, IsReached]

/-- The table is filled if there are exits for every instruction that it needs. -/
theorem isSome_fill? {found : Marks} {pending : List Nat} {t : OnePass}
    (hpending : ∀ i ∈ pending, IsState instrs i)
    (hall : ∀ i, IsState instrs i → (exits? instrs i).isSome) :
    (fill? instrs found pending t).isSome := by
  fun_induction fill? instrs found pending t with
  | case1 => rfl
  | case2 found t i rest hnone =>
    have hsome := hall i (hpending i List.mem_cons_self)
    rw [hnone] at hsome
    cases hsome
  | case3 found t i rest es hexits ih =>
    refine ih fun k hk => ?_
    rcases mem_discover.mp hk with hk | ⟨-, hk⟩
    · exact hpending k (List.mem_cons_of_mem i hk)
    · obtain ⟨j, hcomes, hbyte⟩ := (mem_successors_exits? hexits).mp hk
      exact .next (hpending i List.mem_cons_self) hcomes hbyte

variable {p : Program}

theorem ComesTo.lt_size (hp : p.Regular) (h : ComesTo p.instrs i j) (hi : i < p.size) :
    j < p.size := by
  obtain ⟨ns, h⟩ := h
  induction h with
  | refl => exact hi
  | step hinstr hn _ ih =>
    exact ih (hp.exits hinstr _ (List.mem_append_left _ (List.mem_of_getElem? hn))).2

theorem IsState.lt_size (hp : p.Regular) (h : IsState p.instrs i) : i < p.size := by
  cases h with
  | start => exact Program.lt_size_of_instr hp.first
  | next _ _ hbyte =>
    obtain ⟨instr, hinstr, t, ht, rfl⟩ := hbyte
    exact (hp.exits hinstr _ (List.mem_append_right _ (List.mem_map_of_mem ht))).2

/-- The exits of every instruction that a byte leads to are in the table. -/
theorem exits?_of_isState (hp : p.Regular) {t : OnePass} (ht : ofInstrs? p.instrs = some t)
    (hi : IsState p.instrs i) : exits? p.instrs i = some (t.exitsAt i) := by
  obtain ⟨found, hstart, hexits⟩ :=
    exists_hasExits_of_ofInstrs? ht (Program.lt_size_of_instr hp.first)
  have hfound : found.isFree i = false := by
    induction hi with
    | start => exact hstart
    | @next i j k hstate hcomes hbyte ih =>
      have hdone := hexits i (hstate.lt_size hp) ih
      exact hdone.found k ((mem_successors_exits? hdone.exits).mpr ⟨j, hcomes, hbyte⟩)
  exact (hexits i (hi.lt_size hp) hfound).exits

/-- A program is one-pass exactly if it is not too large and unambiguous from its start and from
wherever a byte leads. -/
theorem isSome_ofInstrs?_iff (hp : p.Regular) :
    (ofInstrs? p.instrs).isSome ↔
      p.size ≤ 1000 ∧ ∀ i, IsState p.instrs i → IsUnambiguous p.instrs i := by
  have hexits : ∀ i, IsState p.instrs i →
      ((exits? p.instrs i).isSome ↔ IsUnambiguous p.instrs i) :=
    fun i hi => isSome_exits?_iff fun j hj => hj.lt_size hp (hi.lt_size hp)
  constructor
  · intro hsome
    obtain ⟨t, ht⟩ := Option.isSome_iff_exists.mp hsome
    refine ⟨?_, fun i hi => (hexits i hi).mp ?_⟩
    · by_contra hlarge
      have hlarge : ¬ p.instrs.size ≤ maxProgramSize := hlarge
      rw [ofInstrs?, if_neg hlarge] at ht
      cases ht
    · rw [exits?_of_isState hp ht hi]
      rfl
  · rintro ⟨hsize, hall⟩
    have hsize : p.instrs.size ≤ maxProgramSize := hsize
    rw [ofInstrs?, if_pos hsize]
    refine isSome_fill? ?_ fun i hi => (hexits i hi).mpr (hall i hi)
    exact List.forall_mem_singleton.mpr .start

/-! ## Programs without choices -/

/-- No instruction has two targets, and every target stands behind its instruction. -/
structure IsStraight (instrs : Array Instr) : Prop where
  single : ∀ (i : Nat) (h : i < instrs.size), instrs[i].targets.length ≤ 1
  forward : ∀ (i : Nat) (h : i < instrs.size), ∀ j ∈ instrs[i].targets, i < j

theorem IsStraight.eq_zero_and_lt (h : IsStraight instrs) {n : Nat} (hi : instrs[i]? = some instr)
    (hn : instr.targets[n]? = some j) : n = 0 ∧ i < j := by
  obtain ⟨hlt, rfl⟩ := Array.getElem?_eq_some_iff.mp hi
  have hsingle := h.single i hlt
  obtain ⟨hlength, -⟩ := List.getElem?_eq_some_iff.mp hn
  exact ⟨by omega, h.forward i hlt j (List.mem_of_getElem? hn)⟩

theorem IsStraight.le_of_leads (h : IsStraight instrs) {ns : List Nat}
    (hleads : Leads instrs i ns j) : i ≤ j := by
  induction hleads with
  | refl => exact Nat.le_refl _
  | step hi hn _ ih => exact Nat.le_trans (Nat.le_of_lt (h.eq_zero_and_lt hi hn).2) ih

/-- Of two ways from an instruction, one goes on where the other ends. -/
theorem IsStraight.leads_or_leads (h : IsStraight instrs) {ns ns' : List Nat}
    (hj : Leads instrs i ns j) (hk : Leads instrs i ns' k) :
    (∃ ms, ns' = ns ++ ms ∧ Leads instrs j ms k) ∨ ∃ ms, ns = ns' ++ ms ∧ Leads instrs k ms j := by
  induction hj generalizing ns' with
  | refl => exact Or.inl ⟨ns', rfl, hk⟩
  | @step i t j n ns instr hi hn hj ih =>
    cases hk with
    | refl => exact Or.inr ⟨n :: ns, rfl, .step hi hn hj⟩
    | @step _ t' _ n' ns' _ hi' hn' hk =>
      obtain rfl := Option.some.inj (hi.symm.trans hi')
      obtain rfl : n = n' := (h.eq_zero_and_lt hi hn).1.trans (h.eq_zero_and_lt hi hn').1.symm
      obtain rfl := Option.some.inj (hn.symm.trans hn')
      refine (ih hk).imp ?_ ?_
      · rintro ⟨ms, rfl, hms⟩
        exact ⟨ms, rfl, hms⟩
      · rintro ⟨ms, rfl, hms⟩
        exact ⟨ms, rfl, hms⟩

/-- A way ends where nothing follows. -/
theorem Leads.eq_of_targets_eq_nil {ms : List Nat} (hms : Leads instrs j ms k)
    (hj : instrs[j]? = some instr) (hnil : instr.targets = []) : k = j := by
  cases hms with
  | refl => rfl
  | step hj' hn =>
    obtain rfl := Option.some.inj (hj.symm.trans hj')
    rw [hnil] at hn
    cases hn

theorem targets_eq_nil_of_accepts {b : UInt8} (h : instr.Accepts b) : instr.targets = [] := by
  obtain ⟨t, ht, -⟩ := h
  cases instr with
  | byteRange | sparse => rfl
  | _ => cases ht

/-- A program without choices is unambiguous everywhere. -/
theorem IsStraight.isUnambiguous (h : IsStraight instrs) (i : Nat) : IsUnambiguous instrs i := by
  have hend : ∀ {j k instr}, ComesTo instrs i j → ComesTo instrs i k → instrs[j]? = some instr →
      instr.targets = [] → ∀ {instr'}, instrs[k]? = some instr' → instr'.targets = [] → j = k := by
    rintro j k instr ⟨ns, hj⟩ ⟨ns', hk⟩ hinstr hnil instr' hinstr' hnil'
    rcases h.leads_or_leads hj hk with ⟨ms, -, hms⟩ | ⟨ms, -, hms⟩
    · exact (hms.eq_of_targets_eq_nil hinstr hnil).symm
    · exact hms.eq_of_targets_eq_nil hinstr' hnil'
  have hloop : ∀ {j ms}, Leads instrs j ms j → ms = [] := by
    intro j ms hms
    cases hms with
    | refl => rfl
    | step hi hn hback =>
      exact absurd (h.le_of_leads hback) (Nat.not_le.mpr (h.eq_zero_and_lt hi hn).2)
  refine ⟨?_, ?_, ?_⟩
  · intro ns ns' j hj hj'
    rcases h.leads_or_leads hj hj' with ⟨ms, rfl, hms⟩ | ⟨ms, rfl, hms⟩
    · rw [hloop hms, List.append_nil]
    · rw [hloop hms, List.append_nil]
  · exact fun hj hk haccept haccept' => hend hj hk haccept rfl haccept' rfl
  · intro j k instr instr' b hj hk hinstr hinstr' hb hb'
    exact hend hj hk hinstr (targets_eq_nil_of_accepts hb) hinstr' (targets_eq_nil_of_accepts hb')

end OnePass
end LinearRegex
