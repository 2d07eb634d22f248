import LinearRegex.Proofs.CharSet.Order
import Mathlib.Data.List.Nodup
import Mathlib.Data.List.Pairwise
import Mathlib.Data.Nat.Bitwise

/-!
# Characters equal but for case

The orbits of the table are disjoint (`disjoint_caseOrbits`), so being in one orbit is an
equivalence of characters (`mem_caseOrbit_symm`, `mem_caseOrbit_trans`).  Three characters that
classes and assertions treat apart are alone in their orbits: the newline and the two neighbours of
the surrogates (`caseOrbit_eq_of_isAlone`).

Disjointness is a fact about nearly three thousand characters.  It is checked in one pass over their
codes, with those met so far as the bits of a number.
-/

namespace LinearRegex
namespace Unicode

/-- The numbers are distinct, and none of them is the place of a bit of `taken`. -/
def areFresh (taken : Nat) : List Nat → Bool
  | [] => true
  | n :: rest => !taken.testBit n && areFresh (taken ||| 1 <<< n) rest

theorem nodup_of_areFresh {taken : Nat} {ns : List Nat} (h : areFresh taken ns) :
    ns.Nodup ∧ ∀ n ∈ ns, taken.testBit n = false := by
  induction ns generalizing taken with
  | nil => simp
  | cons n rest ih =>
    rw [areFresh, Bool.and_eq_true, Bool.not_eq_true'] at h
    obtain ⟨hnodup, hfresh⟩ := ih h.2
    have hbit : ∀ m ∈ rest, taken.testBit m = false ∧ n ≠ m := by
      intro m hm
      have := hfresh m hm
      rwa [Nat.testBit_or, Nat.one_shiftLeft, Nat.testBit_two_pow, Bool.or_eq_false_iff,
        decide_eq_false_iff_not] at this
    constructor
    · apply List.nodup_cons.mpr
      exact ⟨fun hn => (hbit n hn).2 rfl, hnodup⟩
    · intro m hm
      rcases List.mem_cons.mp hm with rfl | hm
      · exact h.1
      · exact (hbit m hm).1

/-- The characters that no other is equal to, of those that classes and assertions set apart. -/
def IsAlone (c : Char) : Prop :=
  c = '\n' ∨ c = '\ud7ff' ∨ c = '\ue000'

theorem areFresh_codes :
    areFresh (1 <<< 0xA ||| 1 <<< 0xD7FF ||| 1 <<< 0xE000)
      (caseOrbits.flatten.map Char.toNat) := by
  decide +kernel

/-- No character is in two orbits of the table. -/
theorem disjoint_caseOrbits : caseOrbits.Pairwise List.Disjoint := by
  have hnodup : caseOrbits.flatten.Nodup := (nodup_of_areFresh areFresh_codes).1.of_map
  exact (List.nodup_flatten.mp hnodup).2

theorem not_mem_of_isAlone {c : Char} (hc : IsAlone c) {orbit : List Char}
    (horbit : orbit ∈ caseOrbits) : c ∉ orbit := by
  intro hmem
  have hcode : c.toNat ∈ caseOrbits.flatten.map Char.toNat :=
    List.mem_map_of_mem (List.mem_flatten_of_mem horbit hmem)
  have hfresh := (nodup_of_areFresh areFresh_codes).2 c.toNat hcode
  rcases hc with rfl | rfl | rfl <;> exact absurd hfresh (by decide +kernel)

theorem eq_of_mem_caseOrbits {o p : List Char} {c : Char} (ho : o ∈ caseOrbits)
    (hp : p ∈ caseOrbits) (hco : c ∈ o) (hcp : c ∈ p) : o = p := by
  have hsymm : Std.Symm (@List.Disjoint Char) := ⟨fun _ _ h c hq ho => h ho hq⟩
  by_contra hne
  exact disjoint_caseOrbits.forall ho hp hne hco hcp

/-- The orbit of a character is the one that the table has it in, or else itself. -/
theorem mem_caseOrbit_iff {c d : Char} :
    d ∈ caseOrbit c ↔ d = c ∨ ∃ o ∈ caseOrbits, c ∈ o ∧ d ∈ o := by
  unfold caseOrbit
  cases hfind : caseOrbits.find? (·.contains c) with
  | none =>
    rw [Option.getD_none, List.mem_singleton]
    refine ⟨Or.inl, fun h => h.resolve_right ?_⟩
    rintro ⟨o, ho, hc, -⟩
    exact List.find?_eq_none.mp hfind o ho (List.contains_iff_mem.mpr hc)
  | some o =>
    have hcontains := List.find?_some hfind
    have hc : c ∈ o := List.contains_iff_mem.mp hcontains
    have ho := List.mem_of_find?_eq_some hfind
    rw [Option.getD_some]
    constructor
    · intro hd
      exact .inr ⟨o, ho, hc, hd⟩
    · rintro (rfl | ⟨p, hp, hcp, hd⟩)
      · exact hc
      · rwa [eq_of_mem_caseOrbits ho hp hc hcp]

theorem self_mem_caseOrbit (c : Char) : c ∈ caseOrbit c :=
  mem_caseOrbit_iff.mpr (.inl rfl)

theorem mem_caseOrbit_symm {c d : Char} (h : d ∈ caseOrbit c) : c ∈ caseOrbit d := by
  rw [mem_caseOrbit_iff] at h ⊢
  rcases h with rfl | ⟨o, ho, hc, hd⟩
  · exact .inl rfl
  · exact .inr ⟨o, ho, hd, hc⟩

theorem mem_caseOrbit_trans {c d e : Char} (hd : d ∈ caseOrbit c) (he : e ∈ caseOrbit d) :
    e ∈ caseOrbit c := by
  rw [mem_caseOrbit_iff] at hd he ⊢
  rcases hd with rfl | ⟨o, ho, hc, hdo⟩
  · exact he
  · rcases he with rfl | ⟨p, hp, hdp, hep⟩
    · exact .inr ⟨o, ho, hc, hdo⟩
    · rw [← eq_of_mem_caseOrbits ho hp hdo hdp] at hep
      exact .inr ⟨o, ho, hc, hep⟩

theorem caseOrbit_eq_of_isAlone {c : Char} (hc : IsAlone c) : caseOrbit c = [c] := by
  have hfind : caseOrbits.find? (·.contains c) = none := by
    apply List.find?_eq_none.mpr
    intro o ho hmem
    exact not_mem_of_isAlone hc ho (List.contains_iff_mem.mp hmem)
  rw [caseOrbit, hfind, Option.getD_none]

/-- Equality but for case does not confuse a character that is alone with another. -/
theorem eq_iff_of_mem_caseOrbit {c d e : Char} (he : IsAlone e) (h : d ∈ caseOrbit c) :
    c = e ↔ d = e := by
  constructor
  · rintro rfl
    rwa [caseOrbit_eq_of_isAlone he, List.mem_singleton] at h
  · rintro rfl
    have := mem_caseOrbit_symm h
    rwa [caseOrbit_eq_of_isAlone he, List.mem_singleton] at this

/-- A character without variants is its own orbit. -/
theorem caseOrbit_eq_of_not_hasCaseVariants {c : Char} (h : hasCaseVariants c = false) :
    caseOrbit c = [c] := by
  have hfind : caseOrbits.find? (·.contains c) = none := by
    apply List.find?_eq_none.mpr
    intro o ho hmem
    exact absurd (List.any_eq_true.mpr ⟨o, ho, hmem⟩) (Bool.eq_false_iff.mp h)
  rw [caseOrbit, hfind, Option.getD_none]

end Unicode

/-- Folding a range adds the characters equal to one of its own. -/
theorem CharRange.exists_mem_foldCase {r : CharRange} {c : Char} :
    (∃ s ∈ r.foldCase, s.contains c) ↔ ∃ d, r.contains d ∧ c ∈ Unicode.caseOrbit d := by
  have hadded : (∃ s ∈ (Unicode.caseOrbits.filter (·.any r.contains)).flatten.map single,
      s.contains c) ↔ ∃ o ∈ Unicode.caseOrbits, (∃ d ∈ o, r.contains d) ∧ c ∈ o := by
    simp only [List.mem_map, exists_exists_and_eq_and, contains_single, List.mem_flatten,
      List.mem_filter, List.any_eq_true]
    aesop
  rw [foldCase, List.exists_mem_cons_iff, hadded]
  constructor
  · rintro (hc | ⟨o, ho, ⟨d, hdo, hd⟩, hc⟩)
    · exact ⟨c, hc, Unicode.self_mem_caseOrbit c⟩
    · exact ⟨d, hd, Unicode.mem_caseOrbit_iff.mpr (.inr ⟨o, ho, hdo, hc⟩)⟩
  · rintro ⟨d, hd, hc⟩
    rcases Unicode.mem_caseOrbit_iff.mp hc with rfl | ⟨o, ho, hdo, hco⟩
    · exact .inl hd
    · exact .inr ⟨o, ho, ⟨d, hdo, hd⟩, hco⟩

end LinearRegex
