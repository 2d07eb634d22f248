/-!
# Loops

A search takes one step after the other, until a step comes to its result.  There is a bound on the
steps that are left, so that it does come to it.
-/

namespace LinearRegex

/-- What a step comes to: the result, or a state for the next step. -/
inductive Loop.Step (σ ρ : Type) where
  | done (result : ρ)
  | next (state : σ)

/-- A result has the property `Q`, and a next state the property `I`. -/
def Loop.Step.Preserves {σ ρ : Type} (I : σ → Prop) (Q : ρ → Prop) : Loop.Step σ ρ → Prop
  | done result => Q result
  | next state => I state

theorem Loop.Step.Preserves.mono {σ ρ : Type} {I I' : σ → Prop} {Q Q' : ρ → Prop}
    {r : Loop.Step σ ρ} (h : r.Preserves I Q) (hnext : ∀ s, I s → I' s)
    (hdone : ∀ x, Q x → Q' x) : r.Preserves I' Q' :=
  match r with
  | done x => hdone x h
  | next s => hnext s h

/-- A step that is taken until it comes to a result. -/
structure Loop (σ ρ : Type) where
  step : σ → Loop.Step σ ρ
  /-- A bound on the steps that are left. -/
  bound : σ → Nat
  bound_lt : ∀ s, (step s).Preserves (bound · < bound s) fun _ => True

namespace Loop

variable {σ ρ : Type} (l : Loop σ ρ) {s s' : σ}

theorem bound_lt_of_step (h : l.step s = .next s') : l.bound s' < l.bound s := by
  have hlt := l.bound_lt s
  rwa [h] at hlt

/-- What the steps from a state come to. -/
def run (s : σ) : ρ :=
  match _h : l.step s with
  | .done result => result
  | .next s => run s
termination_by l.bound s
decreasing_by exact l.bound_lt_of_step _h

end Loop
end LinearRegex
