import LinearRegex.Proofs.Traversal.Basic
import Mathlib.Logic.Relation

/-!
# Which paths there are

The ends of the paths that repeat nothing are, up to what states hold besides their keys, all that
can be reached (`exists_mem_trails_iff`).  Where no key can be reached from itself, the condition
that nothing is repeated takes nothing away, and the paths from a state are those from the states
that follow it (`trails_of_terminates`).
-/

namespace LinearRegex
namespace Exploration

variable {α β κ : Type}

/-- The keys as states. -/
def onKeys (G : Exploration α κ) : Exploration κ κ where
  key := id
  next := G.succ
  succ := G.succ
  map_key_next _ := List.map_id _

/-- A key follows another. -/
def Follows (G : Exploration α κ) (k k' : κ) : Prop :=
  k' ∈ G.succ k

/-- Every path from a key comes to an end. -/
def Terminates (G : Exploration α κ) (k : κ) : Prop :=
  Acc (fun k' k => G.Follows k k') k

theorem Terminates.of_succ {G : Exploration α κ} {k : κ}
    (h : ∀ k' ∈ G.succ k, G.Terminates k') : G.Terminates k :=
  Acc.intro k h

/-- A key from which every path ends does not come after itself. -/
theorem Terminates.not_transGen_self {G : Exploration α κ} {k : κ} (h : G.Terminates k) :
    ¬ Relation.TransGen G.Follows k k := by
  have hacc : Acc (Relation.TransGen fun k' k => G.Follows k k') k := Acc.transGen h
  clear h
  rw [← Relation.transGen_swap]
  induction hacc with
  | intro k _ ih => exact fun hloop => ih k hloop hloop

variable [DecidableEq κ]

/-- Two sets of free keys that agree on what can be reached allow the same paths. -/
theorem trails_congr (G : Exploration α κ) {free free' : Finset κ} {a : α} (P : κ → Prop)
    (ha : P (G.key a)) (hnext : ∀ k, P k → ∀ k' ∈ G.succ k, P k')
    (hagree : ∀ k, P k → (k ∈ free ↔ k ∈ free')) : G.trails free a = G.trails free' a := by
  induction free, a using trails.induct G generalizing free' with
  | case1 free a hmem ih =>
    rw [G.trails_of_mem hmem, G.trails_of_mem ((hagree _ ha).mp hmem)]
    congr 1
    refine List.flatMap_congr fun b hb => ?_
    refine ih b (hnext _ ha _ (G.key_mem_succ hb)) fun k hk => ?_
    rw [Finset.mem_erase, Finset.mem_erase, hagree k hk]
  | case2 free a hmem =>
    rw [G.trails_of_notMem hmem, G.trails_of_notMem (mt (hagree _ ha).mpr hmem)]

/-- A function that respects keys and successors takes paths to paths. -/
theorem map_trails {G : Exploration α κ} {H : Exploration β κ} {f : α → β}
    (hkey : ∀ a, H.key (f a) = G.key a) (hnext : ∀ a, H.next (f a) = (G.next a).map f)
    (free : Finset κ) (a : α) : (G.trails free a).map f = H.trails free (f a) := by
  induction free, a using trails.induct G with
  | case1 free a hmem ih =>
    rw [G.trails_of_mem hmem, H.trails_of_mem (hkey a ▸ hmem), List.map_cons, hnext, hkey,
      List.map_flatMap, List.flatMap_map]
    congr 1
    exact List.flatMap_congr fun b _ => ih b
  | case2 free a hmem =>
    rw [G.trails_of_notMem hmem, H.trails_of_notMem (hkey a ▸ hmem), List.map_nil]

/-- The keys that the paths from a state come to depend on its key alone. -/
theorem map_key_trails (G : Exploration α κ) (free : Finset κ) (a : α) :
    (G.trails free a).map G.key = G.onKeys.trails free (G.key a) :=
  map_trails (f := G.key) (H := G.onKeys) (fun _ => rfl) (fun b => (G.map_key_next b).symm)
    free a

theorem mem_of_mem_trails (G : Exploration α κ) {free : Finset κ} {a b : α}
    (hb : b ∈ G.trails free a) : G.key b ∈ free := by
  induction free, a using trails.induct G with
  | case1 free a hmem ih =>
    rw [G.trails_of_mem hmem] at hb
    rcases List.mem_cons.mp hb with rfl | hb
    · exact hmem
    · obtain ⟨c, -, hbc⟩ := List.mem_flatMap.mp hb
      exact Finset.mem_of_mem_erase (ih c hbc)
  | case2 free a hmem =>
    rw [G.trails_of_notMem hmem] at hb
    cases hb

/-- What holds of a state and passes on to those that follow holds at the end of every path. -/
theorem forall_mem_trails (G : Exploration α κ) {free : Finset κ} {a : α} {P : α → Prop}
    (ha : P a) (hnext : ∀ b, P b → ∀ c ∈ G.next b, P c) : ∀ b ∈ G.trails free a, P b := by
  induction free, a using trails.induct G with
  | case1 free a hmem ih =>
    intro b hb
    rw [G.trails_of_mem hmem] at hb
    rcases List.mem_cons.mp hb with rfl | hb
    · exact ha
    · obtain ⟨c, hc, hbc⟩ := List.mem_flatMap.mp hb
      exact ih c (hnext _ ha c hc) b hbc
  | case2 free a hmem =>
    intro b hb
    rw [G.trails_of_notMem hmem] at hb
    cases hb

/-- The paths that repeat nothing come to every key that can be reached by free keys. -/
theorem exists_mem_trails_iff (G : Exploration α κ) (free : Finset κ) (a : α) (k : κ) :
    (∃ b ∈ G.trails free a, G.key b = k) ↔
      G.key a ∈ free ∧
        Relation.ReflTransGen (fun i j => G.Follows i j ∧ j ∈ free) (G.key a) k := by
  constructor
  · rintro ⟨b, hb, rfl⟩
    refine ⟨?_, ?_⟩
    · by_contra hmem
      rw [G.trails_of_notMem hmem] at hb
      cases hb
    · induction free, a using trails.induct G with
      | case1 free a hmem ih =>
        rw [G.trails_of_mem hmem] at hb
        rcases List.mem_cons.mp hb with rfl | hb
        · exact .refl
        · obtain ⟨c, hc, hbc⟩ := List.mem_flatMap.mp hb
          have hcfree : G.key c ∈ free := by
            by_contra hnot
            rw [G.trails_of_notMem (mt Finset.mem_of_mem_erase hnot)] at hbc
            cases hbc
          refine .head ⟨G.key_mem_succ hc, hcfree⟩
            (Relation.ReflTransGen.mono ?_ _ _ (ih c hbc))
          exact fun i j hij => ⟨hij.1, Finset.mem_of_mem_erase hij.2⟩
      | case2 free a hmem =>
        rw [G.trails_of_notMem hmem] at hb
        cases hb
  · rintro ⟨hmem, hpath⟩
    -- The search with memory has left every key on the path.
    have hvisited : k ∉ G.unvisited free [a] ∧ k ∈ free := by
      induction hpath with
      | refl => exact ⟨G.notMem_unvisited_of_mem List.mem_cons_self, hmem⟩
      | tail _ hlast ih =>
        exact ⟨G.notMem_unvisited_of_mem_succ ih.2 ih.1 hlast.1, hlast.2⟩
    obtain ⟨hleft, hfree⟩ := hvisited
    have hkeys : k ∈ G.keys (G.visits free [a]) := by
      by_contra hnot
      exact hleft (Finset.mem_sdiff.mpr ⟨hfree, hnot⟩)
    have hsettled : G.Settled free free := fun i hi hnot => absurd hi hnot
    rw [G.visits_eq_firsts subset_rfl hsettled, List.flatMap_cons, List.flatMap_nil,
      List.append_nil] at hkeys
    have : k ∉ free \ G.keys (G.trails free a) := by
      rw [← G.sdiff_keys_firsts]
      exact fun h => (Finset.mem_sdiff.mp h).2 hkeys
    rw [Finset.mem_sdiff, not_and_not_right] at this
    exact G.mem_keys.mp (this hfree)

/-- A key that cannot be reached need not be free. -/
theorem trails_erase_of_not_reaches (G : Exploration α κ) {free : Finset κ} {a : α} {k : κ}
    (h : ¬ Relation.ReflTransGen G.Follows (G.key a) k) :
    G.trails (free.erase k) a = G.trails free a := by
  refine G.trails_congr (fun i => ¬ Relation.ReflTransGen G.Follows i k) h ?_ ?_
  · intro i hi j hj hreach
    exact hi (.head hj hreach)
  · intro i hi
    have hne : i ≠ k := fun heq => hi (heq ▸ .refl)
    simp [hne]

/-- Where every path ends, the paths from a state are those from the states that follow it. -/
theorem trails_of_terminates (G : Exploration α κ) {free : Finset κ} {a : α}
    (hmem : G.key a ∈ free) (h : G.Terminates (G.key a)) :
    G.trails free a = a :: (G.next a).flatMap (G.trails free) := by
  rw [G.trails_of_mem hmem]
  congr 1
  refine List.flatMap_congr fun b hb => G.trails_erase_of_not_reaches fun hreach => ?_
  exact h.not_transGen_self (.head' (G.key_mem_succ hb) hreach)

end Exploration
end LinearRegex
