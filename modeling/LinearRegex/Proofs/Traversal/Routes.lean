import LinearRegex.Proofs.Traversal.Paths
import Mathlib.Data.List.Lex
import Mathlib.Data.List.Nodup

/-!
# Routes

A search in depth with memory comes to every key by one path only.  Of all paths that lead there and
repeat nothing it is the first: where another one parts with it, that one takes a later successor
(`IsFirstRoute`).  The keys are visited in the order of these paths, where a path comes before those
that go on from it (`exists_visits_eq_map_fst`).
-/

namespace LinearRegex
namespace Exploration

variable {α κ : Type} (G : Exploration α κ)

/-- A path of keys from `k` to `l` that repeats nothing. -/
structure IsRoute (k l : κ) (path : List κ) : Prop where
  head : path.head? = some k
  last : path.getLast? = some l
  chain : path.IsChain G.Follows
  nodup : path.Nodup

variable {free within : Finset κ} {a b : α} {k l : κ} {path : List κ}

theorem isRoute_singleton (k : κ) : G.IsRoute k k [k] :=
  ⟨rfl, rfl, .singleton k, List.nodup_singleton k⟩

/-- A route goes on from one of the successors of its first key, and does not return. -/
theorem isRoute_cons_cons_iff {k' : κ} :
    G.IsRoute k l (k :: k' :: path) ↔
      k' ∈ G.succ k ∧ k ∉ k' :: path ∧ G.IsRoute k' l (k' :: path) := by
  constructor
  · rintro ⟨-, hlast, hchain, hnodup⟩
    obtain ⟨hfollows, hchain⟩ := List.isChain_cons_cons.mp hchain
    obtain ⟨hnot, hnodup⟩ := List.nodup_cons.mp hnodup
    rw [List.getLast?_cons_cons] at hlast
    exact ⟨hfollows, hnot, rfl, hlast, hchain, hnodup⟩
  · rintro ⟨hfollows, hnot, -, hlast, hchain, hnodup⟩
    refine ⟨rfl, ?_, List.isChain_cons_cons.mpr ⟨hfollows, hchain⟩,
      List.nodup_cons.mpr ⟨hnot, hnodup⟩⟩
    rw [List.getLast?_cons_cons, hlast]

/-- A route keeps to a set that no successor leaves. -/
theorem IsRoute.forall_mem {P : κ → Prop} (h : G.IsRoute k l path) (hk : P k)
    (hnext : ∀ k, P k → ∀ k' ∈ G.succ k, P k') : ∀ k ∈ path, P k := by
  induction path generalizing k with
  | nil => exact List.forall_mem_nil P
  | cons k' rest ih =>
    obtain rfl : k' = k := Option.some.inj h.head
    refine List.forall_mem_cons.mpr ⟨hk, ?_⟩
    cases rest with
    | nil => exact List.forall_mem_nil P
    | cons k'' rest =>
      obtain ⟨hfollows, -, hroute⟩ := G.isRoute_cons_cons_iff.mp h
      exact ih hroute (hnext k' hk k'' hfollows)

variable [DecidableEq κ]

/-- The places of the successors that a path takes.  Paths from one key are compared by them, as
words are in a dictionary. -/
def address : List κ → List Nat
  | k :: l :: path => (G.succ k).idxOf l :: address (l :: path)
  | _ => []

/-- Of all routes from `k` to `l`, the one with the first address. -/
structure IsFirstRoute (k l : κ) (path : List κ) : Prop extends G.IsRoute k l path where
  first : ∀ path', G.IsRoute k l path' → G.address path ≤ G.address path'

/-- The ends of all paths from a state that keep to free keys and repeat none, in the order of
`trails`, each with its path. -/
def routes (free : Finset κ) (a : α) : List (α × List κ) :=
  if _hfree : G.key a ∈ free then
    (a, [G.key a]) :: (G.next a).flatMap fun b =>
      (routes (free.erase (G.key a)) b).map fun r => (r.1, G.key a :: r.2)
  else []
termination_by free.card
decreasing_by exact Finset.card_erase_lt_of_mem _hfree

theorem routes_of_mem (h : G.key a ∈ free) :
    G.routes free a = (a, [G.key a]) :: (G.next a).flatMap fun b =>
      (G.routes (free.erase (G.key a)) b).map fun r => (r.1, G.key a :: r.2) := by
  rw [routes, dif_pos h]

theorem routes_of_notMem (h : G.key a ∉ free) : G.routes free a = [] := by
  rw [routes, dif_neg h]

theorem map_fst_routes (free : Finset κ) (a : α) :
    (G.routes free a).map Prod.fst = G.trails free a := by
  induction free, a using routes.induct G with
  | case1 free a hmem ih =>
    rw [G.routes_of_mem hmem, G.trails_of_mem hmem, List.map_cons, List.map_flatMap]
    congr 1
    refine List.flatMap_congr fun b _ => ?_
    rw [List.map_map, ← ih b]
    rfl
  | case2 free a hmem => rw [G.routes_of_notMem hmem, G.trails_of_notMem hmem, List.map_nil]

/-! ## All routes -/

/-- The paths of the search are routes through free keys. -/
theorem isRoute_of_mem_routes (h : (b, path) ∈ G.routes free a) :
    G.IsRoute (G.key a) (G.key b) path ∧ ∀ k ∈ path, k ∈ free := by
  induction free, a using routes.induct G generalizing path with
  | case1 free a hmem ih =>
    rw [G.routes_of_mem hmem] at h
    rcases List.mem_cons.mp h with heq | h
    · obtain ⟨rfl, rfl⟩ := Prod.mk.inj heq
      exact ⟨G.isRoute_singleton _, List.forall_mem_singleton.mpr hmem⟩
    · obtain ⟨c, hc, h⟩ := List.mem_flatMap.mp h
      obtain ⟨⟨b', path'⟩, hpath', heq⟩ := List.mem_map.mp h
      obtain ⟨rfl, rfl⟩ := Prod.mk.inj heq
      obtain ⟨hroute, hwithin⟩ := ih c hpath'
      obtain ⟨rest, rfl⟩ := List.head?_eq_some_iff.mp hroute.head
      have hnot : G.key a ∉ G.key c :: rest :=
        fun hmem' => Finset.ne_of_mem_erase (hwithin _ hmem') rfl
      refine ⟨G.isRoute_cons_cons_iff.mpr ⟨G.key_mem_succ hc, hnot, hroute⟩, ?_⟩
      exact List.forall_mem_cons.mpr
        ⟨hmem, fun k hk => Finset.mem_of_mem_erase (hwithin k hk)⟩
  | case2 free a hmem =>
    rw [G.routes_of_notMem hmem] at h
    cases h

/-- Every route through free keys is a path of the search. -/
theorem exists_mem_routes (h : G.IsRoute (G.key a) l path) (hfree : ∀ k ∈ path, k ∈ free) :
    ∃ b, G.key b = l ∧ (b, path) ∈ G.routes free a := by
  induction path generalizing a free with
  | nil => cases h.head
  | cons k rest ih =>
    obtain rfl : k = G.key a := Option.some.inj h.head
    obtain ⟨hmem, hrest⟩ := List.forall_mem_cons.mp hfree
    rw [G.routes_of_mem hmem]
    cases rest with
    | nil =>
      obtain rfl : G.key a = l := Option.some.inj h.last
      exact ⟨a, rfl, List.mem_cons_self⟩
    | cons k' rest =>
      obtain ⟨hfollows, hnot, hroute⟩ := G.isRoute_cons_cons_iff.mp h
      obtain ⟨c, hc, rfl⟩ := G.exists_next_of_mem_succ hfollows
      have herase : ∀ k ∈ G.key c :: rest, k ∈ free.erase (G.key a) := by
        intro k hk
        exact Finset.mem_erase.mpr ⟨fun heq => hnot (heq ▸ hk), hrest k hk⟩
      obtain ⟨b, hb, hmem'⟩ := ih hroute herase
      refine ⟨b, hb, List.mem_cons_of_mem _ (List.mem_flatMap.mpr ⟨c, hc, ?_⟩)⟩
      exact List.mem_map.mpr ⟨(b, G.key c :: rest), hmem', rfl⟩

/-! ## The order of the routes -/

theorem address_cons (h : path.head? = some l) :
    G.address (k :: path) = (G.succ k).idxOf l :: G.address path := by
  obtain ⟨rest, rfl⟩ := List.head?_eq_some_iff.mp h
  rfl

/-- Two routes from a key with one address are one. -/
theorem IsRoute.eq_of_address_eq {k' : κ} {path' : List κ} (h : G.IsRoute k l path)
    (h' : G.IsRoute k k' path') (heq : G.address path = G.address path') : path = path' := by
  induction path generalizing k path' with
  | nil => cases h.head
  | cons k₀ rest ih =>
    obtain rfl : k₀ = k := Option.some.inj h.head
    obtain ⟨rest', rfl⟩ := List.head?_eq_some_iff.mp h'.head
    cases rest with
    | nil =>
      cases rest' with
      | nil => rfl
      | cons c rest' => cases heq
    | cons b rest =>
      cases rest' with
      | nil => cases heq
      | cons c rest' =>
        obtain ⟨hb, -, hroute⟩ := G.isRoute_cons_cons_iff.mp h
        obtain ⟨-, -, hroute'⟩ := G.isRoute_cons_cons_iff.mp h'
        obtain ⟨hplace, hrest⟩ := List.cons.inj heq
        obtain rfl : b = c := (List.idxOf_inj hb).mp hplace
        rw [ih hroute hroute' hrest]

/-- Only one route comes first. -/
theorem IsFirstRoute.unique {path' : List κ} (h : G.IsFirstRoute k l path)
    (h' : G.IsFirstRoute k l path') : path = path' := by
  have heq := le_antisymm (h.first path' h'.toIsRoute) (h'.first path h.toIsRoute)
  exact h.toIsRoute.eq_of_address_eq G h'.toIsRoute heq

theorem pairwise_idxOf {ks : List κ} (h : ks.Nodup) :
    ks.Pairwise fun k l => ks.idxOf k < ks.idxOf l := by
  apply List.pairwise_iff_getElem.mpr
  intro i j hi hj hij
  rwa [h.idxOf_getElem i hi, h.idxOf_getElem j hj]

/-- The search meets the routes in the order of their addresses. -/
theorem pairwise_routes (hdistinct : ∀ k, (G.succ k).Nodup) (free : Finset κ) (a : α) :
    (G.routes free a).Pairwise fun r r' => G.address r.2 < G.address r'.2 := by
  induction free, a using routes.induct G with
  | case1 free a hmem ih =>
    have hhead : ∀ {c r}, r ∈ G.routes (free.erase (G.key a)) c → r.2.head? = some (G.key c) :=
      fun hr => (G.isRoute_of_mem_routes hr).1.head
    rw [G.routes_of_mem hmem, List.pairwise_cons, List.pairwise_flatMap]
    refine ⟨?_, ?_, ?_⟩
    · -- The path that ends at once has the empty address.
      intro r hr
      obtain ⟨c, -, hr⟩ := List.mem_flatMap.mp hr
      obtain ⟨r', hr', rfl⟩ := List.mem_map.mp hr
      rw [G.address_cons (hhead hr')]
      exact List.nil_lt_cons _ _
    · intro c _
      rw [List.pairwise_map]
      refine (ih c).imp_of_mem fun {r r'} hr hr' hlt => ?_
      rw [G.address_cons (hhead hr), G.address_cons (hhead hr')]
      exact List.cons_lt_cons_self.mpr hlt
    · have hsucc := pairwise_idxOf (hdistinct (G.key a))
      rw [← G.map_key_next, List.pairwise_map] at hsucc
      refine hsucc.imp fun hlt s hs s' hs' => ?_
      obtain ⟨r, hr, rfl⟩ := List.mem_map.mp hs
      obtain ⟨r', hr', rfl⟩ := List.mem_map.mp hs'
      rw [G.address_cons (hhead hr), G.address_cons (hhead hr'), ← G.map_key_next]
      exact List.cons_lt_cons_iff.mpr (Or.inl hlt)
  | case2 free a hmem =>
    rw [G.routes_of_notMem hmem]
    exact List.Pairwise.nil

/-! ## The routes of the visits -/

/-- Of the states with one key only the first is left. -/
theorem exists_firsts_eq_map_fst {β : Type} {R : α × β → α × β → Prop} {xs : List (α × β)}
    (hxs : xs.Pairwise R) (free : Finset κ) :
    ∃ ys : List (α × β), G.firsts free (xs.map Prod.fst) = ys.map Prod.fst ∧ ys.Sublist xs ∧
      ∀ y ∈ ys, G.key y.1 ∈ free ∧ ∀ x ∈ xs, G.key x.1 = G.key y.1 → y = x ∨ R y x := by
  induction xs generalizing free with
  | nil => exact ⟨[], rfl, .slnil, List.forall_mem_nil _⟩
  | cons x xs ih =>
    obtain ⟨hfirst, hrest⟩ := List.pairwise_cons.mp hxs
    rw [List.map_cons]
    by_cases hfree : G.key x.1 ∈ free
    · obtain ⟨ys, heq, hsub, hys⟩ := ih hrest (free.erase (G.key x.1))
      refine ⟨x :: ys, ?_, hsub.cons_cons x, List.forall_mem_cons.mpr ⟨⟨hfree, ?_⟩, ?_⟩⟩
      · rw [G.firsts_cons_of_mem hfree, heq, List.map_cons]
      · intro z hz _
        rcases List.mem_cons.mp hz with rfl | hz
        · exact Or.inl rfl
        · exact Or.inr (hfirst z hz)
      · intro y hy
        obtain ⟨herase, hall⟩ := hys y hy
        obtain ⟨hne, hmem⟩ := Finset.mem_erase.mp herase
        refine ⟨hmem, fun z hz hkey => ?_⟩
        rcases List.mem_cons.mp hz with rfl | hz
        · exact absurd hkey.symm hne
        · exact hall z hz hkey
    · obtain ⟨ys, heq, hsub, hys⟩ := ih hrest free
      refine ⟨ys, ?_, hsub.cons x, fun y hy => ⟨(hys y hy).1, fun z hz hkey => ?_⟩⟩
      · rw [G.firsts_cons_of_notMem hfree, heq]
      · rcases List.mem_cons.mp hz with rfl | hz
        · exact absurd (hkey ▸ (hys y hy).1) hfree
        · exact (hys y hy).2 z hz hkey

/-- A search in depth with memory visits every state by the first route to it, and in the order of
these routes. -/
theorem exists_visits_eq_map_fst (hdistinct : ∀ k, (G.succ k).Nodup) (hsub : free ⊆ within)
    (hsettled : G.Settled within free) (hmem : G.key a ∈ within)
    (hclosed : ∀ k ∈ within, ∀ k' ∈ G.succ k, k' ∈ within) :
    ∃ rs : List (α × List κ), G.visits free [a] = rs.map Prod.fst ∧
      (rs.Pairwise fun r r' => G.address r.2 < G.address r'.2) ∧
      ∀ r ∈ rs, r ∈ G.routes within a ∧ G.IsFirstRoute (G.key a) (G.key r.1) r.2 := by
  have hordered := G.pairwise_routes hdistinct within a
  obtain ⟨rs, heq, hsublist, hrs⟩ := G.exists_firsts_eq_map_fst hordered free
  refine ⟨rs, ?_, hordered.sublist hsublist, fun r hr => ⟨hsublist.subset hr, ?_, ?_⟩⟩
  · rw [← heq, map_fst_routes, G.visits_eq_firsts hsub hsettled, List.flatMap_singleton]
  · exact (G.isRoute_of_mem_routes (hsublist.subset hr)).1
  · intro path hpath
    have hwithin := hpath.forall_mem G (P := (· ∈ within)) hmem hclosed
    obtain ⟨b, hb, hmem'⟩ := G.exists_mem_routes hpath hwithin
    rcases (hrs r hr).2 _ hmem' hb with rfl | hlt
    · exact le_refl _
    · exact le_of_lt hlt

theorem key_mem_of_mem_firsts {as : List α} (h : b ∈ G.firsts free as) : G.key b ∈ free := by
  induction as generalizing free with
  | nil => cases h
  | cons c as ih =>
    by_cases hfree : G.key c ∈ free
    · rw [G.firsts_cons_of_mem hfree] at h
      rcases List.mem_cons.mp h with rfl | h
      · exact hfree
      · exact Finset.mem_of_mem_erase (ih h)
    · rw [G.firsts_cons_of_notMem hfree] at h
      exact ih h

/-- It visits the free keys that can be reached, and no others. -/
theorem exists_mem_visits_iff (hsub : free ⊆ within) (hsettled : G.Settled within free)
    (hmem : G.key a ∈ within) (hclosed : ∀ k ∈ within, ∀ k' ∈ G.succ k, k' ∈ within) :
    (∃ b ∈ G.visits free [a], G.key b = k) ↔
      k ∈ free ∧ Relation.ReflTransGen G.Follows (G.key a) k := by
  rw [G.visits_eq_firsts hsub hsettled, List.flatMap_singleton]
  constructor
  · rintro ⟨b, hb, rfl⟩
    refine ⟨G.key_mem_of_mem_firsts hb, ?_⟩
    obtain ⟨-, hpath⟩ := (G.exists_mem_trails_iff within a (G.key b)).mp
      ⟨b, G.mem_of_mem_firsts hb, rfl⟩
    exact Relation.ReflTransGen.mono (fun _ _ hstep => hstep.1) _ _ hpath
  · rintro ⟨hfree, hpath⟩
    have hwithin : k ∈ within ∧ Relation.ReflTransGen
        (fun i j => G.Follows i j ∧ j ∈ within) (G.key a) k := by
      clear hfree
      induction hpath with
      | refl => exact ⟨hmem, .refl⟩
      | tail _ hlast ih =>
        have hnext := hclosed _ ih.1 _ hlast
        exact ⟨hnext, ih.2.tail ⟨hlast, hnext⟩⟩
    have hmet := (G.exists_mem_trails_iff within a k).mpr ⟨hmem, hwithin.2⟩
    have hleft := G.sdiff_keys_firsts free (G.trails within a)
    rw [← mem_keys] at hmet ⊢
    by_contra hnot
    have hk := Finset.mem_sdiff.mpr ⟨hfree, hnot⟩
    rw [hleft] at hk
    exact (Finset.mem_sdiff.mp hk).2 hmet

end Exploration
end LinearRegex
