import LinearRegex.Search.Loop
import Mathlib.Data.List.Chain

/-!
# What holds of a loop

What every step preserves holds of all states that a loop comes to and of its result
(`Loop.run_of_preserves`, `Loop.forall_mem_trace`), and two loops go together if their steps do
(`Loop.run_rel`).  The states themselves are listed by a trace, which says all that a loop does on
its way (`Loop.isTrace_trace`), and what it does but once (`Loop.nodup_filterMap_trace`).
-/

namespace LinearRegex

variable {σ ρ : Type} {I I' : σ → Prop} {Q Q' : ρ → Prop}

namespace Loop

theorem Step.Preserves.and {r : Step σ ρ} (h : r.Preserves I Q) (h' : r.Preserves I' Q') :
    r.Preserves (fun s => I s ∧ I' s) fun x => Q x ∧ Q' x :=
  match r with
  | .done _ => ⟨h, h'⟩
  | .next _ => ⟨h, h'⟩

/-- Two steps come to results that are related by `T`, or both to states that are related by `R`. -/
inductive Step.Rel {σ' ρ' : Type} (R : σ → σ' → Prop) (T : ρ → ρ' → Prop) :
    Step σ ρ → Step σ' ρ' → Prop
  | done {x : ρ} {y : ρ'} (h : T x y) : Rel R T (.done x) (.done y)
  | next {s : σ} {t : σ'} (h : R s t) : Rel R T (.next s) (.next t)

variable (l : Loop σ ρ) {s : σ}

theorem run_of_done {result : ρ} (h : l.step s = .done result) : l.run s = result := by
  rw [run]
  split
  · next h' => exact Step.done.inj (h'.symm.trans h)
  · next h' => cases h'.symm.trans h

theorem run_of_next {s' : σ} (h : l.step s = .next s') : l.run s = l.run s' := by
  rw [run]
  split
  · next h' => cases h'.symm.trans h
  · next h' => rw [Step.next.inj (h'.symm.trans h)]

/-- What holds at the start, and is preserved by every step, leads to what is to hold of the
result. -/
theorem run_of_preserves (hstep : ∀ s, I s → (l.step s).Preserves I Q) (hs : I s) :
    Q (l.run s) := by
  fun_induction l.run s with
  | case1 s result h =>
    have hresult := hstep s hs
    rwa [h] at hresult
  | case2 s s' h ih =>
    have hnext := hstep s hs
    rw [h] at hnext
    exact ih hnext

/-- Loops whose steps are related come to related results. -/
theorem run_rel {σ' ρ' : Type} {R : σ → σ' → Prop} {T : ρ → ρ' → Prop} (l' : Loop σ' ρ')
    (hstep : ∀ s t, R s t → (l.step s).Rel R T (l'.step t)) {t : σ'} (h : R s t) :
    T (l.run s) (l'.run t) := by
  fun_induction l.run s generalizing t with
  | case1 s result hs =>
    have hrel := hstep s t h
    rw [hs] at hrel
    generalize ht : l'.step t = r at hrel
    cases hrel with
    | done hdone => exact l'.run_of_done ht ▸ hdone
  | case2 s s' hs ih =>
    have hrel := hstep s t h
    rw [hs] at hrel
    generalize ht : l'.step t = r at hrel
    cases hrel with
    | next hnext => exact l'.run_of_next ht ▸ ih hnext

/-- The states that the loop comes to, in their order. -/
def trace (s : σ) : List σ :=
  match _h : l.step s with
  | .done _ => [s]
  | .next s' => s :: trace s'
termination_by l.bound s
decreasing_by exact l.bound_lt_of_step _h

theorem head?_trace (s : σ) : (l.trace s).head? = some s := by
  rw [trace]
  split <;> rfl

theorem forall_mem_trace (hstep : ∀ s, I s → (l.step s).Preserves I fun _ => True) (hs : I s) :
    ∀ t ∈ l.trace s, I t := by
  fun_induction l.trace s with
  | case1 s result h => exact List.forall_mem_singleton.mpr hs
  | case2 s s' h ih =>
    have hnext := hstep s hs
    rw [h] at hnext
    exact List.forall_mem_cons.mpr ⟨hs, ih hnext⟩

theorem length_trace_le (s : σ) : (l.trace s).length ≤ l.bound s + 1 := by
  fun_induction l.trace s with
  | case1 s result h => exact Nat.succ_le_succ (Nat.zero_le _)
  | case2 s s' h ih => exact Nat.succ_le_succ (Nat.le_trans ih (l.bound_lt_of_step h))

/-- If what a state records is free there, and is not free any more after the step, then nothing is
recorded twice. -/
theorem nodup_filterMap_trace {α : Type} {record? : σ → Option α} (free : σ → α → Prop)
    (hfree : ∀ s, I s → ∀ a ∈ record? s, free s a)
    (hstep : ∀ s, I s → (l.step s).Preserves
      (fun s' => I s' ∧ ∀ a, free s' a → free s a ∧ a ∉ record? s) fun _ => True)
    (hs : I s) :
    ((l.trace s).filterMap record?).Nodup ∧ ∀ a ∈ (l.trace s).filterMap record?, free s a := by
  fun_induction l.trace s with
  | case1 s result h =>
    cases hrecord : record? s with
    | none =>
      rw [List.filterMap_cons_none hrecord]
      exact ⟨List.nodup_nil, nofun⟩
    | some a =>
      rw [List.filterMap_cons_some hrecord]
      exact ⟨List.pairwise_singleton _ a, List.forall_mem_singleton.mpr (hfree s hs a hrecord)⟩
  | case2 s s' h ih =>
    have hnext := hstep s hs
    rw [h] at hnext
    obtain ⟨hs', hlost⟩ := hnext
    obtain ⟨hnodup, hleft⟩ := ih hs'
    cases hrecord : record? s with
    | none =>
      rw [List.filterMap_cons_none hrecord]
      exact ⟨hnodup, fun b hb => (hlost b (hleft b hb)).1⟩
    | some a =>
      rw [List.filterMap_cons_some hrecord]
      refine ⟨List.nodup_cons.mpr ⟨fun hmem => ?_, hnodup⟩,
        List.forall_mem_cons.mpr ⟨hfree s hs a hrecord, fun b hb => (hlost b (hleft b hb)).1⟩⟩
      exact (hlost a (hleft a hmem)).2 hrecord

/-- The states lead from `s` to the result, one step after the other. -/
structure IsTrace (s : σ) (states : List σ) (result : ρ) : Prop where
  begins : states.head? = some s
  goesOn : states.IsChain fun t t' => l.step t = .next t'
  ends : ∃ last ∈ states.getLast?, l.step last = .done result

theorem isTrace_trace (s : σ) : l.IsTrace s (l.trace s) (l.run s) := by
  fun_induction l.trace s with
  | case1 s result h =>
    exact ⟨rfl, List.isChain_singleton s, s, rfl, h.trans (congrArg _ (l.run_of_done h).symm)⟩
  | case2 s s' h ih =>
    obtain ⟨last, hlast, hdone⟩ := ih.ends
    refine ⟨rfl, List.isChain_cons.mpr ⟨fun t ht => ?_, ih.goesOn⟩, last, ?_, ?_⟩
    · rw [head?_trace, Option.mem_some_iff] at ht
      exact ht ▸ h
    · rw [Option.mem_def] at hlast ⊢
      rw [List.getLast?_cons, hlast]
      rfl
    · rw [l.run_of_next h]
      exact hdone

end Loop
end LinearRegex
