import LinearRegex.Proofs.Traversal.Basic
import LinearRegex.Search.Lockstep

/-!
# Which of several matches is kept

The matches of a program come in an order, the preferred path first.  A search keeps the first of
them, or, when the longest match is asked for, the first of those that start first and of these end
last.  A match that is covered by one in front of it is never kept, so the paths that an engine
leaves out because it has been where they lead may be put back (`outcome_firsts`).
-/

namespace LinearRegex
namespace Search

/-- The better of the best match so far and another match. -/
def keepBetter (best? : Option Slots) (s : Slots) : Option Slots :=
  if Lockstep.better best? s then some s else best?

/-- The match that is kept of one found earlier and of those still to be found. -/
def outcome (longest : Bool) (matched? : Option Slots) (ms : List Slots) : Option Slots :=
  if longest then ms.foldl keepBetter matched? else ms.head?.or matched?

/-- With `x` found first, `y` is not kept. -/
def Covers (longest : Bool) (x y : Slots) : Prop :=
  longest → Lockstep.better (some x) y = false

/-- Each of the matches `ys` is covered by one of `xs`. -/
def CoversAll (longest : Bool) (xs ys : List Slots) : Prop :=
  ∀ y ∈ ys, ∃ x ∈ xs, Covers longest x y

variable {longest : Bool} {matched? : Option Slots}

theorem better_some_iff {x y : Slots} :
    Lockstep.better (some x) y = true ↔
      y.start < x.start ∨ y.start = x.start ∧ x.stop < y.stop := by
  simp [Lockstep.better]

theorem covers_iff {x y : Slots} :
    Covers longest x y ↔
      (longest → x.start < y.start ∨ x.start = y.start ∧ y.stop ≤ x.stop) := by
  refine imp_congr_right fun _ => ?_
  rw [← Bool.not_eq_true, better_some_iff]
  omega

theorem Covers.refl (x : Slots) : Covers longest x x := by
  rw [covers_iff]
  omega

theorem Covers.trans {x y z : Slots} (hxy : Covers longest x y) (hyz : Covers longest y z) :
    Covers longest x z := by
  rw [covers_iff] at hxy hyz ⊢
  intro hlongest
  have := hxy hlongest
  have := hyz hlongest
  omega

theorem CoversAll.mono {xs xs' ys : List Slots} (h : CoversAll longest xs ys)
    (hsub : ∀ x ∈ xs, x ∈ xs') : CoversAll longest xs' ys := by
  intro y hy
  obtain ⟨x, hx, hcovers⟩ := h y hy
  exact ⟨x, hsub x hx, hcovers⟩

theorem keepBetter_of_covers {x y : Slots} (h : Covers true x y) :
    keepBetter (some x) y = some x := by
  rw [keepBetter, h rfl, if_neg Bool.false_ne_true]

/-- The best of some matches covers them all. -/
theorem exists_foldl_keepBetter (x : Slots) (xs : List Slots) :
    ∃ m, xs.foldl keepBetter (some x) = some m ∧ Covers true m x ∧ ∀ y ∈ xs, Covers true m y := by
  induction xs generalizing x with
  | nil => exact ⟨x, rfl, .refl x, by simp⟩
  | cons y xs ih =>
    rw [List.foldl_cons, keepBetter]
    by_cases hbetter : Lockstep.better (some x) y = true
    · rw [if_pos hbetter]
      obtain ⟨m, hm, hmy, hall⟩ := ih y
      have hyx : Covers true y x := by
        rw [covers_iff]
        rw [better_some_iff] at hbetter
        omega
      refine ⟨m, hm, hmy.trans hyx, fun z hz => ?_⟩
      rcases List.mem_cons.mp hz with rfl | hz
      · exact hmy
      · exact hall z hz
    · rw [if_neg hbetter]
      obtain ⟨m, hm, hmx, hall⟩ := ih x
      have hxy : Covers true x y := fun _ => Bool.eq_false_of_not_eq_true hbetter
      refine ⟨m, hm, hmx, fun z hz => ?_⟩
      rcases List.mem_cons.mp hz with rfl | hz
      · exact hmx.trans hxy
      · exact hall z hz

theorem exists_foldl_keepBetter_of_mem (matched? : Option Slots) {xs : List Slots} {x : Slots}
    (hx : x ∈ xs) :
    ∃ m, xs.foldl keepBetter matched? = some m ∧ Covers true m x := by
  induction xs generalizing matched? with
  | nil => cases hx
  | cons y xs ih =>
    rcases List.mem_cons.mp hx with rfl | hx
    · rw [List.foldl_cons]
      cases matched? with
      | none =>
        obtain ⟨m, hm, hmx, -⟩ := exists_foldl_keepBetter x xs
        exact ⟨m, hm, hmx⟩
      | some best =>
        obtain ⟨m, hm, -, hall⟩ := exists_foldl_keepBetter best (x :: xs)
        exact ⟨m, hm, hall x List.mem_cons_self⟩
    · exact ih _ hx

theorem foldl_keepBetter_of_covers {m : Slots} {ys : List Slots}
    (h : ∀ y ∈ ys, Covers true m y) : ys.foldl keepBetter (some m) = some m := by
  induction ys with
  | nil => rfl
  | cons y ys ih =>
    rw [List.foldl_cons, keepBetter_of_covers (h y List.mem_cons_self)]
    exact ih fun z hz => h z (List.mem_cons_of_mem y hz)

/-- Matches that are covered by others in front of them may be left out. -/
theorem outcome_append_of_coversAll (matched? : Option Slots) {xs ys : List Slots}
    (h : CoversAll longest xs ys) (zs : List Slots) :
    outcome longest matched? (xs ++ ys ++ zs) = outcome longest matched? (xs ++ zs) := by
  cases ys with
  | nil => rw [List.append_nil]
  | cons y ys =>
    obtain ⟨x, hx, -⟩ := h y List.mem_cons_self
    cases longest with
    | false =>
      obtain ⟨x', xs', rfl⟩ := List.exists_cons_of_ne_nil (List.ne_nil_of_mem hx)
      rfl
    | true =>
      obtain ⟨m, hm, -⟩ := exists_foldl_keepBetter_of_mem matched? hx
      have hall : ∀ z ∈ y :: ys, Covers true m z := by
        intro z hz
        obtain ⟨x', hx', hcovers⟩ := h z hz
        obtain ⟨m', hm', hmx⟩ := exists_foldl_keepBetter_of_mem matched? hx'
        obtain rfl : m = m' := Option.some.inj (hm.symm.trans hm')
        exact hmx.trans hcovers
      simp only [outcome, if_true, List.foldl_append, hm]
      rw [foldl_keepBetter_of_covers hall]

/-- When the longest match is asked for, matches that are covered by the one found earlier may be
left out. -/
theorem outcome_of_covers {m : Slots} {ys : List Slots} (h : ∀ y ∈ ys, Covers true m y)
    (xs zs : List Slots) :
    outcome true (some m) (xs ++ ys ++ zs) = outcome true (some m) (xs ++ zs) := by
  obtain ⟨m', hm', hmm, -⟩ := exists_foldl_keepBetter m xs
  simp only [outcome, if_true, List.foldl_append, hm']
  rw [foldl_keepBetter_of_covers fun y hy => hmm.trans (h y hy)]

/-- Two matches with different ends are weighed in either order. -/
theorem keepBetter_comm {best? : Option Slots} {x y : Slots} (h : x.stop ≠ y.stop) :
    keepBetter (keepBetter best? x) y = keepBetter (keepBetter best? y) x := by
  have hnone : ∀ z, keepBetter none z = some z := fun z => rfl
  have hsome : ∀ b z : Slots, keepBetter (some b) z =
      if z.start < b.start ∨ z.start = b.start ∧ b.stop < z.stop then some z else some b := by
    intro b z
    simp only [keepBetter, better_some_iff]
  cases best? with
  | none =>
    rw [hnone, hnone, hsome, hsome]
    split <;> split <;> first | rfl | omega
  | some b =>
    rw [hsome, hsome]
    by_cases hx : x.start < b.start ∨ x.start = b.start ∧ b.stop < x.stop
    · by_cases hy : y.start < b.start ∨ y.start = b.start ∧ b.stop < y.stop
      · rw [if_pos hx, if_pos hy, hsome, hsome]
        split <;> split <;> first | rfl | omega
      · rw [if_pos hx, if_neg hy, hsome, hsome, if_pos hx, if_neg (by omega)]
    · by_cases hy : y.start < b.start ∨ y.start = b.start ∧ b.stop < y.stop
      · rw [if_neg hx, if_pos hy, hsome, hsome, if_pos hy, if_neg (by omega)]
      · rw [if_neg hx, if_neg hy, hsome, hsome, if_neg hx, if_neg hy]

theorem foldl_keepBetter_comm {best? : Option Slots} {x : Slots} {ys : List Slots}
    (h : ∀ y ∈ ys, x.stop ≠ y.stop) :
    ys.foldl keepBetter (keepBetter best? x) = keepBetter (ys.foldl keepBetter best?) x := by
  induction ys generalizing best? with
  | nil => rfl
  | cons y ys ih =>
    rw [List.foldl_cons, List.foldl_cons, keepBetter_comm (h y List.mem_cons_self)]
    exact ih fun z hz => h z (List.mem_cons_of_mem y hz)

/-- A match may be weighed before those that end elsewhere. -/
theorem outcome_longest_move {x : Slots} {ws : List Slots} (h : ∀ w ∈ ws, x.stop ≠ w.stop)
    (zs : List Slots) :
    outcome true matched? (ws ++ x :: zs) = outcome true (keepBetter matched? x) (ws ++ zs) := by
  simp only [outcome, if_true, List.foldl_append, List.foldl_cons, foldl_keepBetter_comm h]

/-- What is kept is one of the matches. -/
theorem mem_of_outcome_eq_some {ms : List Slots} {m : Slots}
    (h : outcome longest none ms = some m) : m ∈ ms := by
  cases longest with
  | false =>
    rw [outcome, if_neg Bool.false_ne_true, Option.or_none] at h
    exact List.mem_of_head? h
  | true =>
    have hfold : ∀ best? : Option Slots, ms.foldl keepBetter best? = some m →
        best? = some m ∨ m ∈ ms := by
      clear h
      induction ms with
      | nil => exact fun best? hm => Or.inl hm
      | cons x ms ih =>
        intro best? hm
        rcases ih _ hm with hbest | hmem
        · unfold keepBetter at hbest
          split at hbest
          · exact Or.inr (Option.some.inj hbest ▸ List.mem_cons_self)
          · exact Or.inl hbest
        · exact Or.inr (List.mem_cons_of_mem x hmem)
    exact (hfold none h).resolve_left (by simp)

theorem outcome_nil (longest : Bool) (matched? : Option Slots) :
    outcome longest matched? [] = matched? := by
  cases longest <;> rfl

theorem outcome_eq_none_iff {ms : List Slots} : outcome longest none ms = none ↔ ms = [] := by
  constructor
  · intro hnone
    by_contra hne
    obtain ⟨x, xs, rfl⟩ := List.exists_cons_of_ne_nil hne
    cases longest with
    | false => cases hnone
    | true =>
      have hmem : x ∈ x :: xs := List.mem_cons_self
      obtain ⟨m, hm, -⟩ := exists_foldl_keepBetter_of_mem none hmem
      rw [outcome, if_pos rfl, hm] at hnone
      cases hnone
  · rintro rfl
    cases longest <;> rfl

/-- Of matches that start together, one is kept that is in front of all that end where it does. -/
theorem exists_append_of_outcome_eq_some {ms : List Slots} {m : Slots}
    (hstart : ∀ x ∈ ms, ∀ y ∈ ms, x.start = y.start) (h : outcome longest none ms = some m) :
    ∃ as bs, ms = as ++ m :: bs ∧ (∀ x ∈ as, longest ∧ x.stop < m.stop) ∧
      ∀ x ∈ bs, longest → x.stop ≤ m.stop := by
  cases longest with
  | false =>
    rw [outcome, if_neg Bool.false_ne_true, Option.or_none] at h
    obtain ⟨bs, rfl⟩ := List.head?_eq_some_iff.mp h
    exact ⟨[], bs, rfl, List.forall_mem_nil _, fun _ _ => by simp⟩
  | true =>
    simp only [true_and, forall_const]
    induction ms using List.reverseRecOn generalizing m with
    | nil => cases h
    | append_singleton ms x ih =>
      have hstart' : ∀ y ∈ ms, ∀ z ∈ ms, y.start = z.start := fun y hy z hz =>
        hstart y (List.mem_append_left _ hy) z (List.mem_append_left _ hz)
      cases hms : outcome true none ms with
      | none =>
        obtain rfl := outcome_eq_none_iff.mp hms
        obtain rfl : x = m := Option.some.inj h
        exact ⟨[], [], rfl, List.forall_mem_nil _, List.forall_mem_nil _⟩
      | some best =>
        obtain ⟨as, bs, rfl, has, hbs⟩ := ih hstart' hms
        have heq : x.start = best.start :=
          hstart x (List.mem_append_right _ (List.mem_singleton_self x)) best (by simp)
        have hlast : keepBetter (some best) x = some m := by
          rw [outcome, if_pos rfl] at hms h
          rw [List.foldl_append, hms] at h
          exact h
        unfold keepBetter at hlast
        split at hlast
        · next hbetter =>
          obtain rfl := Option.some.inj hlast
          have hstop : best.stop < x.stop := by
            rw [better_some_iff] at hbetter
            omega
          refine ⟨as ++ best :: bs, [], rfl, fun y hy => ?_, List.forall_mem_nil _⟩
          rcases List.mem_append.mp hy with hy | hy
          · exact Nat.lt_trans (has y hy) hstop
          · rcases List.mem_cons.mp hy with rfl | hy
            · exact hstop
            · exact Nat.lt_of_le_of_lt (hbs y hy) hstop
        · next hbetter =>
          obtain rfl := Option.some.inj hlast
          rw [better_some_iff] at hbetter
          refine ⟨as, bs ++ [x], by simp, has, fun y hy => ?_⟩
          rcases List.mem_append.mp hy with hy | hy
          · exact hbs y hy
          · obtain rfl := List.mem_singleton.mp hy
            omega

/-- If the longest match is asked for, none of those that start together ends behind it. -/
theorem stop_le_of_outcome_eq_some {ms : List Slots} {m x : Slots} {start : Nat}
    (hlongest : longest) (hstart : ∀ y ∈ ms, y.start = start)
    (h : outcome longest none ms = some m) (hx : x ∈ ms) : x.stop ≤ m.stop := by
  obtain ⟨as, bs, rfl, has, hbs⟩ := exists_append_of_outcome_eq_some
    (fun y hy z hz => (hstart y hy).trans (hstart z hz).symm) h
  rcases List.mem_append.mp hx with hx | hx
  · exact Nat.le_of_lt (has x hx).2
  · rcases List.mem_cons.mp hx with rfl | hx
    · exact Nat.le_refl _
    · exact hbs x hx hlongest

/-- Where all matches of one list cover all of another, the second list counts only if the first
is empty. -/
theorem outcome_none_append {xs ys : List Slots} (h : ∀ x ∈ xs, ∀ y ∈ ys, Covers longest x y) :
    outcome longest none (xs ++ ys) = (outcome longest none xs).or (outcome longest none ys) := by
  cases xs with
  | nil =>
    rw [List.nil_append, outcome_eq_none_iff.mpr rfl, Option.none_or]
  | cons x xs =>
    have hcovers : CoversAll longest (x :: xs) ys :=
      fun y hy => ⟨x, List.mem_cons_self, h x List.mem_cons_self y hy⟩
    have hsome : outcome longest none (x :: xs) ≠ none := by
      rw [Ne, outcome_eq_none_iff]
      exact List.cons_ne_nil x xs
    obtain ⟨m, hm⟩ := Option.ne_none_iff_exists'.mp hsome
    have hleft := outcome_append_of_coversAll none hcovers []
    rw [List.append_nil, List.append_nil] at hleft
    rw [hleft, hm, Option.some_or]

/-- Of the states with one key only the first counts, if it covers the others. -/
theorem outcome_firsts {α κ : Type} [DecidableEq κ] (longest : Bool) (matched? : Option Slots)
    (G : Exploration α κ) (f : α → List Slots) (free : Finset κ) (pre as : List α)
    (hfree : ∀ b ∈ as, G.key b ∉ free → CoversAll longest (pre.flatMap f) (f b))
    (hsame : ∀ a ∈ as, ∀ b ∈ as, G.key a = G.key b → CoversAll longest (f a) (f b))
    (zs : List Slots) :
    outcome longest matched? ((pre ++ G.firsts free as).flatMap f ++ zs) =
      outcome longest matched? ((pre ++ as).flatMap f ++ zs) := by
  induction as generalizing free pre with
  | nil => rfl
  | cons b as ih =>
    have hsame' : ∀ a ∈ as, ∀ c ∈ as, G.key a = G.key c → CoversAll longest (f a) (f c) :=
      fun a ha c hc => hsame a (List.mem_cons_of_mem b ha) c (List.mem_cons_of_mem b hc)
    by_cases hmem : G.key b ∈ free
    · rw [G.firsts_cons_of_mem hmem, List.append_cons, List.append_cons pre b as]
      refine ih _ _ (fun c hc hnot => ?_) hsame'
      by_cases heq : G.key c = G.key b
      · have hcovers := hsame b List.mem_cons_self c (List.mem_cons_of_mem b hc) heq.symm
        exact hcovers.mono fun x hx => List.mem_flatMap.mpr ⟨b, by simp, hx⟩
      · have hnot' : G.key c ∉ free := fun h => hnot (Finset.mem_erase.mpr ⟨heq, h⟩)
        refine (hfree c (List.mem_cons_of_mem b hc) hnot').mono fun x hx => ?_
        rw [List.flatMap_append]
        exact List.mem_append_left _ hx
    · rw [G.firsts_cons_of_notMem hmem,
        ih _ _ (fun c hc => hfree c (List.mem_cons_of_mem b hc)) hsame']
      have hall := hfree b List.mem_cons_self hmem
      have := outcome_append_of_coversAll matched? hall (as.flatMap f ++ zs)
      simpa [List.append_assoc] using this.symm

end Search
end LinearRegex
