import LinearRegex.Proofs.Search.Exits
import LinearRegex.Proofs.Search.Lockstep

/-!
# The search with a one-pass table

At every position the exits lead to a match, to one way on, or to both, and what is kept of them
is what is kept of all that the instruction leads to (`isChosen_choose`).  So the only path that is
followed ends with the match to be found (`onePass_eq`).
-/

namespace LinearRegex
namespace OnePass

open Search (outcome)

variable {p : Program} {input : Input} {pos start : Nat} {slots : Slots}

/-- What the way on leads to. -/
def wayYields (p : Program) (input : Input) (pos : Nat) (slots : Slots) :
    Option (Nat × List Nat) → List Slots
  | none => []
  | some (next, stored) => (p.results input (next, pos + 1) (slots.storeAll stored pos)).map (·.2)

/-- What open exits lead to, as slots. -/
def exitMatches (p : Program) (input : Input) (pos : Nat) (slots : Slots) (es : List Exit) :
    List Slots :=
  (exitYields p input pos slots es).map (·.2)

theorem exitYields_cons_of_closed {e : Exit} (hclosed : e.isOpen input.haystack pos = false)
    (es : List Exit) :
    exitYields p input pos slots (e :: es) = exitYields p input pos slots es := by
  rw [exitYields, List.filter_cons, if_neg (ne_true_of_eq_false hclosed), ← exitYields]

theorem exitYields_cons_of_open {e : Exit} (hopen : e.isOpen input.haystack pos)
    (es : List Exit) : exitYields p input pos slots (e :: es) =
      p.yield input pos (e.path.thread slots pos) ++ exitYields p input pos slots es := by
  rw [exitYields, List.filter_cons, if_pos hopen, List.flatMap_cons, ← exitYields]

/-- What comes of going through exits: a match or a way on to what is kept of all that they lead
to. -/
structure IsChosen (p : Program) (input : Input) (start pos : Nat) (slots : Slots) (es : List Exit)
    (before after : Choice) : Prop where
  outcome_eq : outcome p.longest after.matched? (wayYields p input pos slots after.way?) =
    outcome p.longest before.matched?
      (wayYields p input pos slots before.way? ++ exitMatches p input pos slots es)
  way : ∀ next stored, after.way? = some (next, stored) → before.way? = some (next, stored) ∨
    ∃ e ∈ es, e.isOpen input.haystack pos ∧ e.instr.nextAt? input.haystack pos = some next ∧
      stored = e.path.slots
  matched : ∀ m ∈ after.matched?, m ∈ before.matched? ∨ m.start = start ∧ m.stop = pos

/-- What going through the remaining exits needs to know. -/
structure IsChoosing (p : Program) (input : Input) (start pos : Nat) (slots : Slots)
    (es : List Exit) (choice : Choice) : Prop where
  instrs : ∀ e ∈ es, p.instrs[e.path.index]? = some e.instr
  apart : es.Pairwise Exit.IsApart
  begun : ∀ a ∈ exitYields p input pos slots es, a.2.start = start ∧ a.2.stop = a.1.2
  /-- Only one way leads on. -/
  way : choice.way?.isSome → ∀ e ∈ es, e.instr.nextAt? input.haystack pos = none
  later : ∀ m ∈ wayYields p input pos slots choice.way?, pos < m.stop
  /-- Only one exit ends the match, and it ends behind the match found before. -/
  matched : (∀ m ∈ choice.matched?, m.start = start ∧ m.stop < pos) ∨ ∀ e ∈ es, e.instr ≠ .accept

theorem IsChoosing.tail {e : Exit} {es : List Exit} {choice : Choice}
    (h : IsChoosing p input start pos slots (e :: es) choice) :
    IsChoosing p input start pos slots es choice := by
  refine ⟨fun e' he' => h.instrs e' (List.mem_cons_of_mem e he'), (List.pairwise_cons.mp h.apart).2,
    fun a ha => h.begun a ?_, fun hsome e' he' => h.way hsome e' (List.mem_cons_of_mem e he'),
    h.later, h.matched.imp_right fun hnone e' he' => hnone e' (List.mem_cons_of_mem e he')⟩
  cases hopen : e.isOpen input.haystack pos with
  | true =>
    rw [exitYields_cons_of_open hopen]
    exact List.mem_append_right _ ha
  | false =>
    rw [exitYields_cons_of_closed hopen]
    exact ha

/-- An exit that leads nowhere may be left out. -/
theorem IsChosen.skip {e : Exit} {es : List Exit} {before after : Choice}
    (hnone : exitYields p input pos slots (e :: es) = exitYields p input pos slots es)
    (h : IsChosen p input start pos slots es before after) :
    IsChosen p input start pos slots (e :: es) before after := by
  refine ⟨?_, fun next stored hway => ?_, h.matched⟩
  · rw [exitMatches, hnone]
    exact h.outcome_eq
  · refine (h.way next stored hway).imp_right ?_
    rintro ⟨e', he', hrest⟩
    exact ⟨e', List.mem_cons_of_mem e he', hrest⟩

/-- Behind an exit that can be taken with the next byte, no other can. -/
theorem nextAt?_eq_none_of_isApart {e e' : Exit} (hapart : e.IsApart e') {h : ByteArray}
    {next : Nat} (hnext : e.instr.nextAt? h pos = some next) : e'.instr.nextAt? h pos = none := by
  obtain ⟨b, hb, hnext⟩ := Option.bind_eq_some_iff.mp hnext
  obtain ⟨t, ht, hlo, hhi, -⟩ := Instr.exists_transition_of_next? hnext
  rw [Instr.nextAt?, hb, Option.bind_some]
  by_contra hsome
  obtain ⟨next', hnext'⟩ := Option.ne_none_iff_exists'.mp hsome
  obtain ⟨t', ht', hlo', hhi', -⟩ := Instr.exists_transition_of_next? hnext'
  exact hapart.bytes b ⟨t, ht, hlo, hhi⟩ ⟨t', ht', hlo', hhi'⟩

/-- A match that ends behind the one found before is kept. -/
theorem keepBetter_eq_some {best? : Option Slots} {m : Slots}
    (h : ∀ b ∈ best?, b.start = m.start ∧ b.stop < m.stop) :
    Search.keepBetter best? m = some m := by
  refine if_pos ?_
  cases best? with
  | none => rfl
  | some b =>
    obtain ⟨hstart, hstop⟩ := h b rfl
    exact Search.better_some_iff.mpr (Or.inr ⟨hstart.symm, hstop⟩)

theorem exitYields_cons_of_accept {e : Exit} (slots : Slots) (es : List Exit)
    (hopen : e.isOpen input.haystack pos) (hi : p.instrs[e.path.index]? = some .accept)
    (hend : input.mayEndAt pos) :
    exitYields p input pos slots (e :: es) =
      ((e.path.index, pos), slots.storeAll e.path.slots pos) ::
        exitYields p input pos slots es := by
  have hi' : p.instrs[(e.path.thread slots pos).index]? = some .accept := hi
  rw [exitYields_cons_of_open hopen, Lockstep.yield_of_accepts hi' hend]
  rfl

section

variable {e : Exit} {es : List Exit} {choice after : Choice}

theorem IsChoosing.start_stop_eq (h : IsChoosing p input start pos slots (e :: es) choice)
    (hopen : e.isOpen input.haystack pos) (haccept : e.instr = .accept)
    (hend : input.mayEndAt pos) :
    (slots.storeAll e.path.slots pos).start = start ∧
      (slots.storeAll e.path.slots pos).stop = pos := by
  have hi : p.instrs[e.path.index]? = some .accept := haccept ▸ h.instrs e List.mem_cons_self
  have hyields := exitYields_cons_of_accept slots es hopen hi hend
  exact h.begun ((e.path.index, pos), slots.storeAll e.path.slots pos)
    (hyields ▸ List.mem_cons_self)

/-- The match that an exit ends is behind the one found before. -/
theorem IsChoosing.keepBetter_eq (h : IsChoosing p input start pos slots (e :: es) choice)
    (hopen : e.isOpen input.haystack pos) (haccept : e.instr = .accept)
    (hend : input.mayEndAt pos) :
    Search.keepBetter choice.matched? (slots.storeAll e.path.slots pos) =
      some (slots.storeAll e.path.slots pos) := by
  refine keepBetter_eq_some fun b hb => ?_
  obtain ⟨hstart, hstop⟩ := h.start_stop_eq hopen haccept hend
  rcases h.matched with hall | hall
  · rw [hstart, hstop]
    exact hall b hb
  · exact absurd haccept (hall e List.mem_cons_self)

/-- Behind an exit that ends the match, no other does. -/
theorem IsChoosing.accept (h : IsChoosing p input start pos slots (e :: es) choice)
    (haccept : e.instr = .accept) (matched? : Option Slots) :
    IsChoosing p input start pos slots es { choice with matched? } := by
  have hnone : ∀ e' ∈ es, e'.instr ≠ .accept :=
    fun e' he' => ((List.pairwise_cons.mp h.apart).1 e' he').accept haccept
  have htail := h.tail
  exact ⟨htail.instrs, htail.apart, htail.begun, htail.way, htail.later, Or.inr hnone⟩

/-- Where the longest match is asked for, the exits behind the one that ends the match count. -/
theorem IsChosen.accept (hlongest : p.longest)
    (hbefore : IsChoosing p input start pos slots (e :: es) choice)
    (hopen : e.isOpen input.haystack pos) (haccept : e.instr = .accept)
    (hend : input.mayEndAt pos)
    (h : IsChosen p input start pos slots es
      { choice with matched? := some (slots.storeAll e.path.slots pos) } after) :
    IsChosen p input start pos slots (e :: es) choice after := by
  have hi : p.instrs[e.path.index]? = some .accept :=
    haccept ▸ hbefore.instrs e List.mem_cons_self
  obtain ⟨hstart, hstop⟩ := hbefore.start_stop_eq hopen haccept hend
  refine ⟨h.outcome_eq.trans ?_, fun next stored hway => ?_, fun m hm => ?_⟩
  · have hends : ∀ w ∈ wayYields p input pos slots choice.way?,
        (slots.storeAll e.path.slots pos).stop ≠ w.stop := by
      intro w hw
      rw [hstop]
      exact Nat.ne_of_lt (hbefore.later w hw)
    have hmatches : exitMatches p input pos slots (e :: es) =
        slots.storeAll e.path.slots pos :: exitMatches p input pos slots es := by
      rw [exitMatches, exitYields_cons_of_accept slots es hopen hi hend]
      rfl
    rw [hlongest, hmatches, Search.outcome_longest_move hends,
      hbefore.keepBetter_eq hopen haccept hend]
  · refine (h.way next stored hway).imp_right ?_
    rintro ⟨e', he', hrest⟩
    exact ⟨e', List.mem_cons_of_mem e he', hrest⟩
  · rcases h.matched m hm with hm | hm
    · obtain rfl := Option.some.inj hm
      exact Or.inr ⟨hstart, hstop⟩
    · exact Or.inr hm

/-- Otherwise the exit that ends the match cuts off those behind it. -/
theorem isChosen_first (hfirst : p.longest = false)
    (h : IsChoosing p input start pos slots (e :: es) choice)
    (hopen : e.isOpen input.haystack pos) (haccept : e.instr = .accept)
    (hend : input.mayEndAt pos) :
    IsChosen p input start pos slots (e :: es) choice
      { choice with matched? := some (slots.storeAll e.path.slots pos) } := by
  have hi : p.instrs[e.path.index]? = some .accept := haccept ▸ h.instrs e List.mem_cons_self
  obtain ⟨hstart, hstop⟩ := h.start_stop_eq hopen haccept hend
  refine ⟨?_, fun next stored hway => Or.inl hway, fun m hm => ?_⟩
  · rw [hfirst, exitMatches, exitYields_cons_of_accept slots es hopen hi hend, List.map_cons]
    exact Lockstep.outcome_first _ _ _ _
  · obtain rfl := Option.some.inj hm
    exact Or.inr ⟨hstart, hstop⟩

/-- There is one way on at most. -/
theorem IsChoosing.way?_eq_none (h : IsChoosing p input start pos slots (e :: es) choice)
    {next : Nat} (hnext : e.instr.nextAt? input.haystack pos = some next) :
    choice.way? = none := by
  by_contra hsome
  have := h.way (Option.ne_none_iff_isSome.mp hsome) e List.mem_cons_self
  rw [hnext] at this
  cases this

/-- What an exit leads to with the next byte. -/
theorem exitMatches_cons_of_nextAt? (hi : p.instrs[e.path.index]? = some e.instr)
    (hopen : e.isOpen input.haystack pos) {next : Nat}
    (hnext : e.instr.nextAt? input.haystack pos = some next) :
    exitMatches p input pos slots (e :: es) =
      wayYields p input pos slots (some (next, e.path.slots)) ++
        exitMatches p input pos slots es := by
  have hnext' : p.nextAt? input.haystack pos (e.path.thread slots pos).index = some next :=
    (Program.nextAt?_of_instr hi).trans hnext
  rw [exitMatches, exitYields_cons_of_open hopen, Lockstep.yield_of_nextAt? hnext',
    List.map_append]
  rfl

/-- Behind an exit that the next byte leads through, no other leads on. -/
theorem IsChoosing.next (h : IsChoosing p input start pos slots (e :: es) choice)
    (hopen : e.isOpen input.haystack pos) {next : Nat}
    (hnext : e.instr.nextAt? input.haystack pos = some next) :
    IsChoosing p input start pos slots es { choice with way? := some (next, e.path.slots) } := by
  have htail := h.tail
  refine ⟨htail.instrs, htail.apart, htail.begun, fun _ e' he' =>
    nextAt?_eq_none_of_isApart ((List.pairwise_cons.mp h.apart).1 e' he') hnext, fun w hw => ?_,
    htail.matched⟩
  obtain ⟨a, ha, rfl⟩ := List.mem_map.mp hw
  have hnext' : p.nextAt? input.haystack pos (e.path.thread slots pos).index = some next :=
    (Program.nextAt?_of_instr (h.instrs e List.mem_cons_self)).trans hnext
  have hmem : a ∈ exitYields p input pos slots (e :: es) := by
    rw [exitYields_cons_of_open hopen, Lockstep.yield_of_nextAt? hnext']
    exact List.mem_append_left _ ha
  rw [(h.begun a hmem).2]
  exact Program.le_of_mem_results ha

theorem IsChosen.next (hbefore : IsChoosing p input start pos slots (e :: es) choice)
    (hopen : e.isOpen input.haystack pos) {next : Nat}
    (hnext : e.instr.nextAt? input.haystack pos = some next)
    (h : IsChosen p input start pos slots es
      { choice with way? := some (next, e.path.slots) } after) :
    IsChosen p input start pos slots (e :: es) choice after := by
  refine ⟨?_, fun next' stored hway => ?_, h.matched⟩
  · rw [exitMatches_cons_of_nextAt? (hbefore.instrs e List.mem_cons_self) hopen hnext,
      hbefore.way?_eq_none hnext]
    exact h.outcome_eq
  · rcases h.way next' stored hway with heq | ⟨e', he', hrest⟩
    · obtain ⟨rfl, rfl⟩ := Prod.mk.inj (Option.some.inj heq)
      exact Or.inr ⟨e, List.mem_cons_self, hopen, hnext, rfl⟩
    · exact Or.inr ⟨e', List.mem_cons_of_mem e he', hrest⟩

end

/-- The choice keeps what is kept of all that the exits lead to. -/
theorem isChosen_choose {es : List Exit} {choice : Choice}
    (h : IsChoosing p input start pos slots es choice) :
    IsChosen p input start pos slots es choice (choose input p.longest pos slots es choice) := by
  fun_induction choose input p.longest pos slots es choice with
  | case1 choice =>
    refine ⟨?_, fun next stored hway => Or.inl hway, fun m hm => Or.inl hm⟩
    rw [exitMatches, exitYields, List.filter_nil, List.flatMap_nil, List.map_nil, List.append_nil]
  | case2 e es choice hopen haccept hend choice' hlongest ih =>
    exact IsChosen.accept hlongest h hopen haccept hend (ih (h.accept haccept _))
  | case3 e es choice hopen haccept hend choice' hlongest =>
    exact isChosen_first (Bool.eq_false_of_not_eq_true hlongest) h hopen haccept hend
  | case4 e es choice hopen haccept hend ih =>
    have hi : p.instrs[(e.path.thread slots pos).index]? = some .accept :=
      haccept ▸ h.instrs e List.mem_cons_self
    refine IsChosen.skip ?_ (ih h.tail)
    rw [exitYields_cons_of_open hopen, Lockstep.yield_eq_nil, List.nil_append]
    · rw [Program.accepts_of_instr hi, Bool.eq_false_of_not_eq_true hend, Bool.and_false]
    · rw [Program.nextAt?_of_instr hi, Instr.nextAt?_of_not_isConsuming rfl]
  | case5 e es choice hopen haccept way? ih =>
    have hi : p.instrs[(e.path.thread slots pos).index]? = some e.instr :=
      h.instrs e List.mem_cons_self
    have hway : way? = (e.instr.nextAt? input.haystack pos).map (·, e.path.slots) := rfl
    cases hnext : e.instr.nextAt? input.haystack pos with
    | none =>
      rw [hnext, Option.map_none] at hway
      rw [hway, Option.or_none] at ih ⊢
      refine IsChosen.skip ?_ (ih h.tail)
      rw [exitYields_cons_of_open hopen, Lockstep.yield_eq_nil, List.nil_append]
      · exact Program.accepts_eq_false hi haccept
      · rw [Program.nextAt?_of_instr hi, hnext]
    | some next =>
      rw [hnext, Option.map_some] at hway
      rw [h.way?_eq_none hnext, Option.none_or, hway] at ih ⊢
      exact IsChosen.next h hopen hnext (ih (h.next hopen hnext))
  | case6 e es choice hclosed ih =>
    exact IsChosen.skip (exitYields_cons_of_closed (Bool.eq_false_of_not_eq_true hclosed) es)
      (ih h.tail)

/-- The exits of an instruction are ready to be gone through. -/
theorem isChoosing_exits? (hp : p.Regular) {i : Nat} {es : List Exit}
    (hexits : exits? p.instrs i = some es) {matched? : Option Slots} (hstart : input.start ≤ pos)
    (hpos : pos ≤ input.haystack.size) (hbegun : IsBegun p start (i, pos) slots)
    (hmatched : ∀ m ∈ matched?, m.start = start ∧ m.stop < pos) :
    IsChoosing p input start pos slots es { matched? } := by
  refine ⟨instr_of_mem_exits? hexits, pairwise_isApart_exits? hexits, fun a ha => ?_, by simp,
    by simp [wayYields], Or.inl hmatched⟩
  rw [exitYields_exits? hexits hstart hpos] at ha
  exact (hbegun.of_mem_results hp ha).start_stop_eq hp
    (Program.instr_of_accepts (Program.accepts_of_mem_results ha))

/-- The path that is followed from an instruction of the table ends with what is kept of all that
the instruction leads to. -/
theorem run_eq (hp : p.Regular) {t : OnePass} {found : Marks}
    (htable : ∀ i, i < p.instrs.size → found.isFree i = false → HasExits p.instrs found t i)
    {i : Nat} {matched? : Option Slots} (hstart : input.start ≤ pos)
    (hpos : pos ≤ input.haystack.size) (hi : i < p.instrs.size) (hfound : found.isFree i = false)
    (hbegun : IsBegun p start (i, pos) slots)
    (hmatched : ∀ m ∈ matched?, m.start = start ∧ m.stop < pos) :
    t.run input p.longest i pos slots matched? =
      outcome p.longest matched? ((p.results input (i, pos) slots).map (·.2)) := by
  have hround : ∀ {i pos : Nat} {slots : Slots} {matched? : Option Slots}, input.start ≤ pos →
      pos ≤ input.haystack.size → i < p.instrs.size → found.isFree i = false →
      IsBegun p start (i, pos) slots → (∀ m ∈ matched?, m.start = start ∧ m.stop < pos) →
      IsChosen p input start pos slots (t.exitsAt i) { matched? }
        (choose input p.longest pos slots (t.exitsAt i) { matched? }) ∧
      exitMatches p input pos slots (t.exitsAt i) =
        (p.results input (i, pos) slots).map (·.2) := by
    intro i pos slots matched? hstart hpos hi hfound hbegun hmatched
    have hexits := (htable i hi hfound).exits
    refine ⟨isChosen_choose (isChoosing_exits? hp hexits hstart hpos hbegun hmatched), ?_⟩
    rw [exitMatches, exitYields_exits? hexits hstart hpos]
  fun_induction run t input p.longest i pos slots matched? with
  | case1 i pos slots matched? choice next stored hway hlt ih =>
    obtain ⟨hchosen, hall⟩ := hround hstart hpos hi hfound hbegun hmatched
    have houtcome := hchosen.outcome_eq
    obtain ⟨e, he, hopen, hnext, rfl⟩ := (hchosen.way next stored hway).resolve_left (by simp)
    have hexits := htable i hi hfound
    have hinstr := instr_of_mem_exits? hexits.exits e he
    have hnext' : p.nextAt? input.haystack pos e.path.index = some next := by
      rw [Program.nextAt?_of_instr hinstr, hnext]
    have hbegun' := (isBegun_of_mem_exits? hp hbegun hexits.exits e he hopen).next hp
      (Program.mem_successors_of_nextAt? hnext')
    rw [Program.stored_of_nextAt? hnext'] at hbegun'
    have hsuccessor : next ∈ successors (t.exitsAt i) := by
      obtain ⟨b, -, hb⟩ := Option.bind_eq_some_iff.mp hnext
      obtain ⟨tr, htr, -, -, rfl⟩ := Instr.exists_transition_of_next? hb
      exact List.mem_flatMap.mpr ⟨e, he, List.mem_map_of_mem htr⟩
    have hblock := hp.exits hinstr next (Instr.mem_exits_of_nextAt? hnext)
    rw [ih (Nat.le_succ_of_le hstart) hlt hblock.2 (hexits.found next hsuccessor) hbegun'
      fun m hm => ?_]
    · rw [← hall]
      rw [hway] at houtcome
      exact houtcome
    · rcases hchosen.matched m hm with hm | ⟨hmstart, hmstop⟩
      · exact ⟨(hmatched m hm).1, Nat.lt_succ_of_lt (hmatched m hm).2⟩
      · exact ⟨hmstart, hmstop ▸ Nat.lt_succ_self pos⟩
  | case2 i pos slots matched? choice next stored hway hge =>
    obtain ⟨hchosen, -⟩ := hround hstart hpos hi hfound hbegun hmatched
    obtain ⟨e, he, hopen, hnext, rfl⟩ := (hchosen.way next stored hway).resolve_left (by simp)
    rw [Instr.nextAt?_of_size_le (Nat.le_of_not_lt hge)] at hnext
    cases hnext
  | case3 i pos slots matched? choice hway =>
    obtain ⟨hchosen, hall⟩ := hround hstart hpos hi hfound hbegun hmatched
    have houtcome := hchosen.outcome_eq
    rw [hway, wayYields, Search.outcome_nil, hall] at houtcome
    exact houtcome

end OnePass

namespace Search

/-- The one-pass table finds the match that is bound to start where the search does. -/
theorem onePass_eq {p : Program} {input : Input} {t : OnePass} (hp : p.Regular)
    (hs : p.Summarized) (ht : p.onePass? = some t) (hanchored : input.anchoredFor p) :
    onePass t p input = (best? p input input.start).map (Captures.ofSlots p.slotCount) := by
  have hadmits : admits p input input.start = Utf8.isBoundary input.haystack input.start := by
    simp [admits]
  have hlater : best? p input (input.start + 1) = none := by
    rw [best?, startsFrom_of_anchoredFor hanchored (Nat.lt_succ_self _)]
    rfl
  have hpos : 0 < p.instrs.size := Program.lt_size_of_instr hp.first
  obtain ⟨found, hzero, htable⟩ := OnePass.exists_hasExits_of_ofInstrs? (hs.onePass ▸ ht) hpos
  rw [onePass]
  split
  · next hstart =>
    rw [best?_of_admits hstart.1 (hadmits.trans hstart.2), hlater, Option.or_none, matchesAt,
      OnePass.run_eq hp htable (Nat.le_refl _) hstart.1 hpos hzero
        (IsBegun.blank hp (two_le_slotsFor p input) input.start) (by simp)]
  · next hnot =>
    rw [best?_eq_none]
    · rfl
    · intro start hmem
      obtain ⟨hle, hsize, hadmitted⟩ := mem_startsFrom.mp hmem
      have heq : start = input.start := by
        simp only [admits, hanchored, Bool.not_true, Bool.false_or, Bool.and_eq_true, beq_iff_eq]
          at hadmitted
        exact hadmitted.1
      rw [heq] at hsize hadmitted
      exact absurd ⟨hsize, hadmits ▸ hadmitted⟩ hnot

end Search
end LinearRegex
