import Mathlib.Data.Finset.Card
import Mathlib.Data.Finset.Dedup
import Mathlib.Data.Finset.SDiff
import Mathlib.Data.List.Basic

/-!
# Searching in depth, with and without memory

The engines follow the paths of a program in depth, and never visit what they have visited
before.  What a match ought to be is said without such a memory, by all paths that repeat nothing.
This module compares the two on any graph whose nodes carry keys: the visits are the first states
with their keys among the ends of all paths (`visits_eq_firsts`).  What makes the exchange possible
is that a key which has been left is followed only by keys that have been reached.
-/

namespace LinearRegex

/-- States with keys.  What follows a state is determined, up to keys, by its key. -/
structure Exploration (α κ : Type) where
  key : α → κ
  /-- The states that follow a state, the preferred one first. -/
  next : α → List α
  /-- The keys that follow a key. -/
  succ : κ → List κ
  map_key_next : ∀ a, (next a).map key = succ (key a)

namespace Exploration

variable {α κ : Type} (G : Exploration α κ)

theorem key_mem_succ {a b : α} (hb : b ∈ G.next a) : G.key b ∈ G.succ (G.key a) := by
  rw [← G.map_key_next]
  exact List.mem_map_of_mem hb

theorem exists_next_of_mem_succ {a : α} {k : κ} (hk : k ∈ G.succ (G.key a)) :
    ∃ b ∈ G.next a, G.key b = k := by
  rw [← G.map_key_next] at hk
  exact List.mem_map.mp hk

variable [DecidableEq κ]

/-- Visits the states of a stack and those that follow them, in depth and each free key once. -/
def visits (free : Finset κ) (stack : List α) : List α :=
  match stack with
  | [] => []
  | a :: rest =>
    if _hfree : G.key a ∈ free then
      a :: visits (free.erase (G.key a)) (G.next a ++ rest)
    else visits free rest
termination_by (free.card, stack.length)
decreasing_by
  · exact Prod.Lex.left _ _ (Finset.card_erase_lt_of_mem _hfree)
  · exact Prod.Lex.right _ (by simp)

/-- The ends of all paths from a state that keep to free keys and repeat none, in the order in
which a search without memory meets them. -/
def trails (free : Finset κ) (a : α) : List α :=
  if _hfree : G.key a ∈ free then
    a :: (G.next a).flatMap fun b => trails (free.erase (G.key a)) b
  else []
termination_by free.card
decreasing_by exact Finset.card_erase_lt_of_mem _hfree

/-- Of every free key the first state that has it. -/
def firsts (free : Finset κ) : List α → List α
  | [] => []
  | a :: as =>
    if G.key a ∈ free then a :: firsts (free.erase (G.key a)) as else firsts free as

/-- The keys of a list of states. -/
def keys (as : List α) : Finset κ :=
  (as.map G.key).toFinset

/-- The keys that are still free after the visits. -/
def unvisited (free : Finset κ) (stack : List α) : Finset κ :=
  free \ G.keys (G.visits free stack)

/-- Every key of `within` that is not free is followed only by keys that are not free either. -/
def Settled (within free : Finset κ) : Prop :=
  ∀ k ∈ within, k ∉ free → ∀ k' ∈ G.succ k, k' ∉ free

theorem mem_keys {as : List α} {k : κ} : k ∈ G.keys as ↔ ∃ a ∈ as, G.key a = k := by
  simp [keys]

/-! ## Unfolding -/

@[simp] theorem visits_nil (free : Finset κ) : G.visits free [] = [] := by
  rw [visits]

theorem visits_cons_of_mem {free : Finset κ} {a : α} (h : G.key a ∈ free) (rest : List α) :
    G.visits free (a :: rest) = a :: G.visits (free.erase (G.key a)) (G.next a ++ rest) := by
  rw [visits, dif_pos h]

theorem visits_cons_of_notMem {free : Finset κ} {a : α} (h : G.key a ∉ free) (rest : List α) :
    G.visits free (a :: rest) = G.visits free rest := by
  rw [visits, dif_neg h]

theorem trails_of_mem {free : Finset κ} {a : α} (h : G.key a ∈ free) :
    G.trails free a =
      a :: (G.next a).flatMap (G.trails (free.erase (G.key a))) := by
  rw [trails, dif_pos h]

theorem trails_of_notMem {free : Finset κ} {a : α} (h : G.key a ∉ free) :
    G.trails free a = [] := by
  rw [trails, dif_neg h]

theorem firsts_cons_of_mem {free : Finset κ} {a : α} (h : G.key a ∈ free) (as : List α) :
    G.firsts free (a :: as) = a :: G.firsts (free.erase (G.key a)) as := by
  rw [firsts, if_pos h]

theorem firsts_cons_of_notMem {free : Finset κ} {a : α} (h : G.key a ∉ free) (as : List α) :
    G.firsts free (a :: as) = G.firsts free as := by
  rw [firsts, if_neg h]

theorem sdiff_keys_cons (free : Finset κ) (a : α) (as : List α) :
    free \ G.keys (a :: as) = free.erase (G.key a) \ G.keys as := by
  ext k
  simp only [keys, List.map_cons, List.toFinset_cons, Finset.mem_sdiff, Finset.mem_insert,
    Finset.mem_erase, not_or]
  tauto

theorem unvisited_cons_of_mem {free : Finset κ} {a : α} (h : G.key a ∈ free) (rest : List α) :
    G.unvisited free (a :: rest) =
      G.unvisited (free.erase (G.key a)) (G.next a ++ rest) := by
  rw [unvisited, G.visits_cons_of_mem h, sdiff_keys_cons, unvisited]

theorem unvisited_cons_of_notMem {free : Finset κ} {a : α} (h : G.key a ∉ free)
    (rest : List α) : G.unvisited free (a :: rest) = G.unvisited free rest := by
  rw [unvisited, G.visits_cons_of_notMem h, unvisited]

theorem unvisited_subset (free : Finset κ) (stack : List α) :
    G.unvisited free stack ⊆ free :=
  Finset.sdiff_subset

/-! ## Lists put one after the other -/

/-- What stands further down on the stack is visited with what is left free by the rest. -/
theorem visits_append (free : Finset κ) (xs ys : List α) :
    G.visits free (xs ++ ys) =
      G.visits free xs ++ G.visits (G.unvisited free xs) ys := by
  induction free, xs using visits.induct G with
  | case1 free => simp [unvisited, keys]
  | case2 free a rest hfree ih =>
    rw [List.cons_append, G.visits_cons_of_mem hfree, G.visits_cons_of_mem hfree,
      G.unvisited_cons_of_mem hfree, ← List.append_assoc, ih, List.cons_append]
  | case3 free a rest hfree ih =>
    rw [List.cons_append, G.visits_cons_of_notMem hfree, G.visits_cons_of_notMem hfree,
      G.unvisited_cons_of_notMem hfree, ih]

theorem firsts_append (free : Finset κ) (xs ys : List α) :
    G.firsts free (xs ++ ys) = G.firsts free xs ++ G.firsts (free \ G.keys xs) ys := by
  induction xs generalizing free with
  | nil => simp [firsts, keys]
  | cons a xs ih =>
    by_cases hfree : G.key a ∈ free
    · rw [List.cons_append, G.firsts_cons_of_mem hfree, G.firsts_cons_of_mem hfree, ih,
        sdiff_keys_cons, List.cons_append]
    · rw [List.cons_append, G.firsts_cons_of_notMem hfree, G.firsts_cons_of_notMem hfree, ih,
        sdiff_keys_cons, Finset.erase_eq_of_notMem hfree]

theorem mem_of_mem_firsts {free : Finset κ} {as : List α} {a : α} (ha : a ∈ G.firsts free as) :
    a ∈ as := by
  induction as generalizing free with
  | nil => cases ha
  | cons b as ih =>
    rw [firsts] at ha
    split at ha
    · rcases List.mem_cons.mp ha with rfl | ha
      · exact List.mem_cons_self
      · exact List.mem_cons_of_mem b (ih ha)
    · exact List.mem_cons_of_mem b (ih ha)

/-- Leaving out repeated keys leaves out no key. -/
theorem sdiff_keys_firsts (free : Finset κ) (xs : List α) :
    free \ G.keys (G.firsts free xs) = free \ G.keys xs := by
  induction xs generalizing free with
  | nil => rfl
  | cons a xs ih =>
    by_cases hfree : G.key a ∈ free
    · rw [G.firsts_cons_of_mem hfree, sdiff_keys_cons, sdiff_keys_cons, ih]
    · rw [G.firsts_cons_of_notMem hfree, ih, sdiff_keys_cons, Finset.erase_eq_of_notMem hfree]

theorem firsts_of_disjoint {free : Finset κ} {xs : List α} (h : ∀ a ∈ xs, G.key a ∉ free) :
    G.firsts free xs = [] := by
  induction xs with
  | nil => rfl
  | cons a xs ih =>
    rw [G.firsts_cons_of_notMem (h a List.mem_cons_self)]
    exact ih fun b hb => h b (List.mem_cons_of_mem a hb)

/-! ## What the visits leave -/

theorem notMem_unvisited_of_mem {free : Finset κ} {stack : List α} {a : α} (ha : a ∈ stack) :
    G.key a ∉ G.unvisited free stack := by
  induction free, stack using visits.induct G with
  | case1 free => cases ha
  | case2 free b rest hfree ih =>
    rw [G.unvisited_cons_of_mem hfree]
    rcases List.mem_cons.mp ha with rfl | ha
    · intro hmem
      exact Finset.notMem_erase _ _ (G.unvisited_subset _ _ hmem)
    · exact ih (List.mem_append_right _ ha)
  | case3 free b rest hfree ih =>
    rw [G.unvisited_cons_of_notMem hfree]
    rcases List.mem_cons.mp ha with rfl | ha
    · exact fun hmem => hfree (G.unvisited_subset _ _ hmem)
    · exact ih ha

/-- The visits go on until nothing free follows what they have reached. -/
theorem notMem_unvisited_of_mem_succ {free : Finset κ} {stack : List α} {k k' : κ}
    (hk : k ∈ free) (hvisited : k ∉ G.unvisited free stack) (hk' : k' ∈ G.succ k) :
    k' ∉ G.unvisited free stack := by
  induction free, stack using visits.induct G with
  | case1 free => simp [unvisited, keys, hk] at hvisited
  | case2 free a rest hfree ih =>
    rw [G.unvisited_cons_of_mem hfree] at hvisited ⊢
    by_cases heq : k = G.key a
    · rw [heq] at hk'
      obtain ⟨b, hb, rfl⟩ := G.exists_next_of_mem_succ hk'
      exact G.notMem_unvisited_of_mem (List.mem_append_left _ hb)
    · exact ih (Finset.mem_erase.mpr ⟨heq, hk⟩) hvisited
  | case3 free a rest hfree ih =>
    rw [G.unvisited_cons_of_notMem hfree] at hvisited ⊢
    exact ih hk hvisited

/-- What was settled before the visits is settled after them. -/
theorem Settled.unvisited {within free : Finset κ} (h : G.Settled within free)
    (stack : List α) : G.Settled within (G.unvisited free stack) := by
  intro k hk hvisited k' hk'
  by_cases hfree : k ∈ free
  · exact G.notMem_unvisited_of_mem_succ hfree hvisited hk'
  · exact fun hmem => h k hk hfree k' hk' (G.unvisited_subset _ _ hmem)

theorem Settled.erase {within free : Finset κ} (h : G.Settled within free) (k : κ) :
    G.Settled (within.erase k) (free.erase k) := by
  intro i hi hvisited j hj
  obtain ⟨hne, hmem⟩ := Finset.mem_erase.mp hi
  have hi' : i ∉ free := fun hfree => hvisited (Finset.mem_erase.mpr ⟨hne, hfree⟩)
  exact fun hj' => h i hmem hi' j hj (Finset.mem_of_mem_erase hj')

/-- Nothing free is reached from a key that is settled. -/
theorem notMem_of_mem_trails {within free : Finset κ} {a b : α} (h : G.Settled within free)
    (ha : G.key a ∉ free) (hb : b ∈ G.trails within a) : G.key b ∉ free := by
  induction within, a using trails.induct G with
  | case1 within a hmem ih =>
    rw [G.trails_of_mem hmem] at hb
    rcases List.mem_cons.mp hb with rfl | hb
    · exact ha
    · obtain ⟨c, hc, hbc⟩ := List.mem_flatMap.mp hb
      have hsettled : G.Settled (within.erase (G.key a)) free := by
        have := h.erase G (G.key a)
        rwa [Finset.erase_eq_of_notMem ha] at this
      exact ih c hsettled (h _ hmem ha _ (G.key_mem_succ hc)) hbc
  | case2 within a hmem =>
    rw [G.trails_of_notMem hmem] at hb
    cases hb

/-! ## The exchange -/

/-- A search with memory visits, of all paths, the first to every key. -/
theorem visits_eq_firsts {within free : Finset κ} (hsub : free ⊆ within)
    (h : G.Settled within free) (xs : List α) :
    G.visits free xs = G.firsts free (xs.flatMap (G.trails within)) := by
  -- On the number of free keys; the states that are not free are passed over by a second
  -- induction, on the stack.
  induction hn : free.card using Nat.strong_induction_on generalizing free within xs with
  | _ n ihFree =>
  induction xs with
  | nil => simp [firsts]
  | cons a rest ihRest =>
    rw [List.flatMap_cons, firsts_append]
    by_cases hfree : G.key a ∈ free
    · have hlt : (free.erase (G.key a)).card < n := hn ▸ Finset.card_erase_lt_of_mem hfree
      have hbelow := ihFree _ hlt (Finset.erase_subset_erase (G.key a) hsub)
        (h.erase G (G.key a)) (G.next a) rfl
      have hleft : free \ G.keys (G.trails within a) =
          G.unvisited (free.erase (G.key a)) (G.next a) := by
        rw [G.trails_of_mem (hsub hfree), sdiff_keys_cons, unvisited, hbelow,
          sdiff_keys_firsts]
      have hsettled : G.Settled within
          (G.unvisited (free.erase (G.key a)) (G.next a)) := by
        have := h.unvisited G [a]
        rwa [G.unvisited_cons_of_mem hfree, List.append_nil] at this
      have hcard : (G.unvisited (free.erase (G.key a)) (G.next a)).card < n :=
        lt_of_le_of_lt (Finset.card_le_card (G.unvisited_subset _ _)) hlt
      have hrest := ihFree _ hcard
        ((G.unvisited_subset _ _).trans ((Finset.erase_subset _ _).trans hsub))
        hsettled rest rfl
      rw [G.visits_cons_of_mem hfree, visits_append, hrest, hleft, G.trails_of_mem (hsub hfree),
        G.firsts_cons_of_mem hfree, hbelow, List.cons_append]
    · have hnone : ∀ b ∈ G.trails within a, G.key b ∉ free :=
        fun b hb => G.notMem_of_mem_trails h hfree hb
      have hleft : free \ G.keys (G.trails within a) = free := by
        refine Finset.sdiff_eq_self_of_disjoint (Finset.disjoint_left.mpr ?_)
        intro k hk hmem
        obtain ⟨b, hb, rfl⟩ := G.mem_keys.mp hmem
        exact hnone b hb hk
      rw [G.visits_cons_of_notMem hfree, G.firsts_of_disjoint hnone, hleft, List.nil_append]
      exact ihRest

end Exploration
end LinearRegex
