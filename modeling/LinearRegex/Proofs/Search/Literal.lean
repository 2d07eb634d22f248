import LinearRegex.Proofs.Program.Compile
import LinearRegex.Proofs.Search.Reference
import LinearRegex.Search.Engine

/-!
# Searching for a literal

A program amounts to a literal when the only path from its start ends with a match and has nothing
else to tell.  Then a match starts just where the literal stands, and its slots are known
(`matchesAt_ne_nil_iff`, `eq_of_mem_matchesAt`), so looking the literal up finds the match that a
search ought to find (`literal_eq`).
-/

namespace LinearRegex
namespace Search

variable {longest : Bool} {e : Expr} {lit : LiteralPrefix} {input : Input}

/-- The program amounts to the literal. -/
structure AmountsTo (p : Program) (lit : LiteralPrefix) : Prop where
  bytes : (Summary.lead p.instrs).bytes.toList = lit.bytes
  ends : (Summary.lead p.instrs).ends
  free : (Summary.lead p.instrs).anchored = false
  nonempty : 0 < lit.bytes.length
  slotCount : p.slotCount = 2

theorem amountsTo_of_literal? {p : Program} (hs : p.Summarized) (hlit : p.literal? = some lit) :
    AmountsTo p lit := by
  obtain ⟨hlead, hwhole⟩ := Option.filter_eq_some_iff.mp hlit
  rw [Bool.and_eq_true, beq_iff_eq] at hwhole
  rw [hs.literal, Summary.Lead.literal?] at hlead
  split at hlead
  · cases hlead
  · next hbytes =>
    obtain rfl := Option.some.inj hlead
    have hcomplete := hwhole.1
    simp only [Bool.and_eq_true, Bool.not_eq_true'] at hcomplete
    refine ⟨rfl, hcomplete.1.1, hcomplete.1.2, ?_, hwhole.2⟩
    rw [Array.length_toList]
    exact Nat.pos_of_ne_zero fun hzero => hbytes (by simp [Array.isEmpty, hzero])

/-- A match of the literal may start at `pos`. -/
structure Suits (lit : LiteralPrefix) (input : Input) (pos : Nat) : Prop where
  start_le : input.start ≤ pos
  anchored : input.anchoredStart → pos = input.start
  isAt : lit.isAt input.haystack pos
  mayEnd : input.mayEndAt (pos + lit.bytes.length)

theorem slotsFor_eq_two {p : Program} (h : AmountsTo p lit) : input.slotsFor p = 2 := by
  unfold Input.slotsFor
  rw [h.slotCount, ite_self]

theorem anchoredFor_eq {p : Program} (hs : p.Summarized) (h : AmountsTo p lit) :
    input.anchoredFor p = input.anchoredStart := by
  rw [Input.anchoredFor, hs.anchored, h.free, Bool.or_false]

theorem eq_of_offset?_eq {s : Slots} {start stop : Nat} (hsize : s.size = 2)
    (hstart : s.offset? 0 = some start) (hstop : s.offset? 1 = some stop) :
    s = #[some start, some stop] := by
  refine Array.ext hsize fun i hi hi' => ?_
  have hget : s.offset? i = s[i] := by
    rw [Slots.offset?, getElem?_pos s i hi]
    rfl
  rw [hsize] at hi
  rcases (by omega : i = 0 ∨ i = 1) with rfl | rfl
  · exact hget.symm.trans hstart
  · exact hget.symm.trans hstop

/-- The slots of a match of a literal are its start and its end. -/
theorem eq_of_mem_matchesAt {p : Program} (hp : p.Regular) (h : AmountsTo p lit) {start : Nat}
    (hstart : input.start ≤ start) (hsize : start ≤ input.haystack.size) {m : Slots}
    (hm : m ∈ matchesAt p input start) : m = #[some start, some (start + lit.bytes.length)] := by
  obtain ⟨a, ha, rfl⟩ := List.mem_map.mp hm
  have hat := Program.instr_of_accepts (Program.accepts_of_mem_results ha)
  have hbegun := (IsBegun.blank hp (two_le_slotsFor p input) start).of_mem_results hp ha
  have hreach := ((Program.exists_mem_results_iff hstart hsize _).mp ⟨a.2, ha⟩).1
  have hstop := (Program.lead_agrees hsize hat hreach).ends h.ends
  have hlength := Program.size_of_mem_results ha
  rw [Slots.size_blank, slotsFor_eq_two h] at hlength
  have hne : a.1.1 ≠ 0 := by
    intro hzero
    rw [hzero, hp.first] at hat
    cases hat
  refine eq_of_offset?_eq hlength (hbegun.offset_zero hne) ?_
  rw [hbegun.offset_one hat, hstop, ← h.bytes, Array.length_toList]

theorem le_size_of_isAt {pos : Nat} (hat : lit.isAt input.haystack pos) :
    pos + lit.bytes.length ≤ input.haystack.size :=
  LiteralPrefix.le_size_of_bytesAt hat

/-- Where the literal stands, a path leads to a match. -/
theorem exists_reaches_of_isAt {p : Program} (h : AmountsTo p lit) {pos : Nat}
    (hat : lit.isAt input.haystack pos) :
    ∃ k, p.Reaches input.haystack (0, pos) (k, pos + lit.bytes.length) ∧
      p.instrs[k]? = some .accept := by
  rw [LiteralPrefix.isAt, ← h.bytes] at hat
  have hpos : pos = pos + ({} : Summary.Lead).bytes.size := rfl
  have hreaches := Summary.exists_reaches_of_ends rfl hpos h.ends h.free hat
  rwa [← Summary.lead, ← Array.length_toList, h.bytes] at hreaches

/-- A match starts just where the literal stands. -/
theorem matchesAt_ne_nil_iff {p : Program} (h : AmountsTo p lit) {start : Nat}
    (hstart : input.start ≤ start) (hsize : start ≤ input.haystack.size) :
    matchesAt p input start ≠ [] ↔
      lit.isAt input.haystack start ∧ input.mayEndAt (start + lit.bytes.length) := by
  rw [Ne, matchesAt_eq_nil_iff hstart hsize]
  simp only [not_forall, Bool.not_eq_false, exists_prop]
  constructor
  · rintro ⟨c, hreach, haccepts⟩
    have hagrees := Program.lead_agrees hsize (Program.instr_of_accepts haccepts) hreach
    have hbytes := hagrees.bytes
    have hstop := hagrees.ends h.ends
    rw [← Array.length_toList, h.bytes] at hstop
    rw [h.bytes] at hbytes
    rw [Program.accepts, Bool.and_eq_true, hstop] at haccepts
    exact ⟨hbytes, haccepts.2⟩
  · rintro ⟨hat, hend⟩
    obtain ⟨k, hreach, hk⟩ := exists_reaches_of_isAt h hat
    refine ⟨_, hreach, ?_⟩
    rw [Program.accepts_of_instr hk, hend]
    rfl

/-- The literal of an expression begins where a character does. -/
theorem isBoundary_of_isAt (he : e.WellFormed) (h : AmountsTo (.ofExpr longest e) lit) {pos : Nat}
    (hat : lit.isAt input.haystack pos) : Utf8.isBoundary input.haystack pos := by
  have hspans := (Program.reaches_accept_iff longest e).mp (exists_reaches_of_isAt h hat)
  have htext := ByteExpr.isText_of_spans (Expr.isTextual_bytewise he) hspans
  rcases htext.eq_or_isBoundary with heq | hb
  · have := h.nonempty
    omega
  · exact hb

/-! ## Looking the literal up -/

/-- The literal is looked up at the first position that suits. -/
theorem literalAt?_eq_some {pos : Nat} (hsuits : Suits lit input pos)
    (hfirst : ∀ pos' < pos, ¬ Suits lit input pos') : literalAt? lit input = some pos := by
  have hsize := le_size_of_isAt hsuits.isAt
  have hstart := hsuits.start_le
  unfold literalAt?
  split
  · next hanchored => rw [hsuits.anchored hanchored]
  · next hfree =>
    split
    · next hend =>
      have hstop := hsuits.mayEnd
      rw [Input.mayEndAt, hend, Bool.not_true, Bool.false_or, beq_iff_eq] at hstop
      rw [if_pos (by omega), Option.some.injEq]
      omega
    · next hopen =>
      have hmayEnd : ∀ stop, input.mayEndAt stop := by simp [Input.mayEndAt, hopen]
      cases hfind : lit.find? input.haystack input.start with
      | none =>
        have := Haystack.first?_eq_none hfind pos hstart (by omega)
        rw [hsuits.isAt] at this
        cases this
      | some i =>
        obtain ⟨hi, -, hat, hbefore⟩ := Haystack.first?_eq_some hfind
        have hle : pos ≤ i := by
          by_contra hlt
          refine hfirst i (Nat.lt_of_not_le hlt) ⟨hi, ?_, hat, hmayEnd _⟩
          exact fun hanchored => absurd hanchored hfree
        rcases Nat.eq_or_lt_of_le hle with rfl | hlt
        · rfl
        · have := hbefore pos hstart hlt
          rw [hsuits.isAt] at this
          cases this

/-- Where the literal is looked up, there is no match before it. -/
theorem suits_of_literalAt? {pos : Nat} (hlook : literalAt? lit input = some pos)
    (hat : lit.isAt input.haystack pos) (hend : input.mayEndAt (pos + lit.bytes.length)) :
    Suits lit input pos ∧ ∀ pos' < pos, ¬ Suits lit input pos' := by
  unfold literalAt? at hlook
  split at hlook
  · next hanchored =>
    cases hlook
    refine ⟨⟨Nat.le_refl _, fun _ => rfl, hat, hend⟩, fun pos' hlt hsuits => ?_⟩
    exact absurd hsuits.start_le (Nat.not_le_of_lt hlt)
  · next hfree =>
    split at hlook
    · next hanchored =>
      split at hlook
      · cases hlook
        refine ⟨⟨by omega, fun h => absurd h hfree, hat, hend⟩, fun pos' hlt hsuits => ?_⟩
        have hstop := hsuits.mayEnd
        rw [Input.mayEndAt, hanchored, Bool.not_true, Bool.false_or, beq_iff_eq] at hstop
        omega
      · cases hlook
    · obtain ⟨hstart, -, -, hbefore⟩ := Haystack.first?_eq_some hlook
      refine ⟨⟨hstart, fun h => absurd h hfree, hat, hend⟩, fun pos' hlt hsuits => ?_⟩
      have := hbefore pos' hsuits.start_le hlt
      rw [hsuits.isAt] at this
      cases this

/-- The literal is found at the first position that suits. -/
theorem literal_eq_some_iff {slotCount : Nat} {captures : Captures} :
    literal lit slotCount input = some captures ↔
      ∃ pos, (Suits lit input pos ∧ ∀ pos' < pos, ¬ Suits lit input pos') ∧
        Captures.ofSlots slotCount #[some pos, some (pos + lit.bytes.length)] = captures := by
  unfold literal
  constructor
  · intro h
    split at h
    · next pos hlook =>
      dsimp only at h
      split at h
      · next hsuits =>
        rw [Bool.and_eq_true] at hsuits
        exact ⟨pos, suits_of_literalAt? hlook hsuits.1 hsuits.2, Option.some.inj h⟩
      · cases h
    · cases h
  · rintro ⟨pos, ⟨hsuits, hfirst⟩, rfl⟩
    simp only [literalAt?_eq_some hsuits hfirst, hsuits.isAt, hsuits.mayEnd, Bool.and_self, if_true]

/-- A literal that a program amounts to is found where its match ought to be. -/
theorem literal_eq (he : e.WellFormed) (h : AmountsTo (.ofExpr longest e) lit) :
    literal lit (Program.ofExpr longest e).slotCount input =
      (best? (.ofExpr longest e) input input.start).map
        (Captures.ofSlots (Program.ofExpr longest e).slotCount) := by
  have hanchored : input.anchoredFor (.ofExpr longest e) = input.anchoredStart :=
    anchoredFor_eq (Program.summarized_ofExpr longest e) h
  have hsuits : ∀ pos, Suits lit input pos ↔
      pos ∈ startsFrom (.ofExpr longest e) input input.start ∧
        matchesAt (.ofExpr longest e) input pos ≠ [] := by
    intro pos
    rw [mem_startsFrom, admits, hanchored]
    constructor
    · intro hsuits
      have hsize := le_size_of_isAt hsuits.isAt
      have hle : pos ≤ input.haystack.size := by omega
      refine ⟨⟨hsuits.start_le, hle, ?_⟩,
        (matchesAt_ne_nil_iff h hsuits.start_le hle).mpr ⟨hsuits.isAt, hsuits.mayEnd⟩⟩
      rw [isBoundary_of_isAt he h hsuits.isAt, Bool.and_true, Bool.or_eq_true, beq_iff_eq,
        Bool.not_eq_true']
      by_cases hstart : input.anchoredStart = true
      · exact Or.inr (hsuits.anchored hstart)
      · exact Or.inl (Bool.eq_false_of_not_eq_true hstart)
    · rintro ⟨⟨hstart, hsize, hadmits⟩, hne⟩
      obtain ⟨hat, hend⟩ := (matchesAt_ne_nil_iff h hstart hsize).mp hne
      refine ⟨hstart, fun hanchored => ?_, hat, hend⟩
      simpa [hanchored] using (Bool.and_eq_true_iff.mp hadmits).1
  have hp := Program.regular_ofExpr longest he
  cases hbest : best? (.ofExpr longest e) input input.start with
  | none =>
    rw [Option.map_none, Option.eq_none_iff_forall_ne_some]
    intro captures hfound
    obtain ⟨pos, ⟨hpos, -⟩, -⟩ := literal_eq_some_iff.mp hfound
    obtain ⟨hmem, hne⟩ := (hsuits pos).mp hpos
    exact hne (best?_eq_none_iff.mp hbest pos hmem)
  | some m =>
    obtain ⟨start, hmem, hm, hbefore⟩ := best?_eq_some_iff.mp hbest
    have hmatch := mem_of_outcome_eq_some hm
    obtain ⟨hstart, hsize, -⟩ := mem_startsFrom.mp hmem
    rw [eq_of_mem_matchesAt hp h hstart hsize hmatch, Option.map_some, literal_eq_some_iff]
    refine ⟨start, ⟨(hsuits start).mpr ⟨hmem, List.ne_nil_of_mem hmatch⟩, fun pos' hlt hpos' => ?_⟩,
      rfl⟩
    obtain ⟨hmem', hne⟩ := (hsuits pos').mp hpos'
    exact hne (hbefore pos' hmem' hlt)

end Search
end LinearRegex
