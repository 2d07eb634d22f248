/-!
# Scanning a haystack

The first position of a stretch at which something holds.
-/

namespace LinearRegex
namespace Haystack

/-- The first position from `pos` on, and before `stop`, at which `p` holds. -/
def first? (p : Nat → Bool) (pos stop : Nat) : Option Nat :=
  if pos < stop then
    if p pos then some pos else first? p (pos + 1) stop
  else none
termination_by stop - pos

/-- What is found lies in the stretch, and nothing before it would do. -/
theorem first?_eq_some {p : Nat → Bool} {pos stop i : Nat} (h : first? p pos stop = some i) :
    pos ≤ i ∧ i < stop ∧ p i ∧ ∀ j, pos ≤ j → j < i → p j = false := by
  fun_induction first? p pos stop with
  | case1 start hlt hp =>
    cases h
    exact ⟨Nat.le_refl _, hlt, hp, fun j hle hj => absurd hj (Nat.not_lt.mpr hle)⟩
  | case2 start hlt hp ih =>
    obtain ⟨hle, hi, hpi, hbefore⟩ := ih h
    refine ⟨by omega, hi, hpi, fun j hj hji => ?_⟩
    rcases Nat.eq_or_lt_of_le hj with rfl | hj
    · exact Bool.not_eq_true _ ▸ hp
    · exact hbefore j hj hji
  | case3 start hlt => cases h

end Haystack
end LinearRegex
