import Mathlib.Tactic.Common

namespace CocoonFs.Runs

variable {σ α : Type}

/-- The states a system with the given steps gets into from s₀ while every
step it takes meets the condition. A step that is not enabled, or that panics,
has no successor. -/
inductive Reached (step : σ → α → Option σ) (Allowed : σ → α → Prop) (s₀ : σ) : σ → Prop where
  | start : Reached step Allowed s₀ s₀
  | next {s t : σ} (a : α) : Reached step Allowed s₀ s → Allowed s a → step s a = some t →
      Reached step Allowed s₀ t

variable {step : σ → α → Option σ} {Allowed : σ → α → Prop}

theorem Reached.invariant {s₀ s : σ} {P : σ → Prop} (h : Reached step Allowed s₀ s) (hstart : P s₀)
    (hstep : ∀ s a t, P s → Allowed s a → step s a = some t → P t) : P s := by
  induction h with
  | start => exact hstart
  | next a _ hallowed hst ih => exact hstep _ a _ ih hallowed hst

def execute (step : σ → α → Option σ) : σ → List α → Option σ
  | s, [] => some s
  | s, a :: as => (step s a).bind fun t => execute step t as

def AllAllowed (step : σ → α → Option σ) (Allowed : σ → α → Prop) : σ → List α → Prop
  | _, [] => True
  | s, a :: as => Allowed s a ∧ ∀ t, step s a = some t → AllAllowed step Allowed t as

theorem Reached.trans {s₀ s₁ s₂ : σ} (h : Reached step Allowed s₀ s₁)
    (h' : Reached step Allowed s₁ s₂) : Reached step Allowed s₀ s₂ := by
  induction h' with
  | start => exact h
  | next a _ hallowed hst ih => exact .next a ih hallowed hst

theorem reached_of_execute (s t : σ) (as : List α) (h : execute step s as = some t)
    (hallowed : AllAllowed step Allowed s as) : Reached step Allowed s t := by
  induction as generalizing s with
  | nil =>
    obtain rfl : s = t := by simpa [execute] using h
    exact .start
  | cons a as ih =>
    obtain ⟨u, hu, h⟩ := Option.bind_eq_some_iff.1 h
    exact (Reached.next a .start hallowed.1 hu).trans (ih u h (hallowed.2 u hu))

end CocoonFs.Runs
