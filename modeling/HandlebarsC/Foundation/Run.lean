import Mathlib.Data.List.Basic

/-!
Runs of a labelled transition system, and the rule that carries an invariant
along them.
-/

namespace Transition

/-- The run from one state to another that takes the listed steps. -/
inductive Run (step : σ → α → σ → Prop) : σ → List α → σ → Prop where
  | nil (state : σ) : Run step state [] state
  | cons {state middle last : σ} {action : α} {actions : List α}
      (first : step state action middle) (rest : Run step middle actions last) :
      Run step state (action :: actions) last

/-- Steps whose state and action meet a condition. -/
def Guarded (guard : σ → α → Prop) (step : σ → α → σ → Prop) (state : σ) (action : α) (next : σ) :
    Prop :=
  guard state action ∧ step state action next

/-- A guarded run is a run. -/
theorem Run.unguarded {guard : σ → α → Prop} {step : σ → α → σ → Prop}
    (run : Run (Guarded guard step) first actions last) : Run step first actions last := by
  induction run with
  | nil state => exact .nil state
  | cons taken rest ih => exact .cons taken.2 ih

/-- What every step keeps, every run keeps. -/
theorem Run.invariant {step : σ → α → σ → Prop} (inv : σ → Prop)
    (keep : ∀ state action next, inv state → step state action next → inv next)
    (run : Run step first actions last) (start : inv first) : inv last := by
  induction run with
  | nil state => exact start
  | cons first rest ih => exact ih (keep _ _ _ start first)

theorem Run.append {step : σ → α → σ → Prop} (run : Run step first actions middle)
    (further : Run step middle later last) : Run step first (actions ++ later) last := by
  induction run with
  | nil state => exact further
  | cons first rest ih => exact .cons first (ih further)

/-- Where a step keeps an invariant exactly under a condition, the states of all runs through it
have the invariant if all steps meet the condition, and only then. -/
theorem Run.invariant_iff {step : σ → α → σ → Prop} (inv : σ → Prop) (guard : σ → α → Prop)
    (keep : ∀ state action next, inv state → step state action next →
      (inv next ↔ guard state action))
    (start : inv first) (actions : List α) (last : σ) :
    (∀ before after middle, actions = before ++ after → Run step first before middle →
        Run step middle after last → inv middle) ↔
      ∀ before action after middle, actions = before ++ action :: after →
        Run step first before middle → Run step middle (action :: after) last →
          guard middle action := by
  constructor
  · intro all before action after middle split front behind
    have here := all before (action :: after) middle split front behind
    cases behind with
    | cons next rest =>
      have there := all (before ++ [action]) after _ (by rw [split, List.append_assoc]; rfl)
        (front.append (.cons next (.nil _))) rest
      exact (keep _ _ _ here next).mp there
  · intro guards before
    induction before generalizing first actions with
    | nil =>
      rintro after middle - front -
      cases front
      exact start
    | cons action before ih =>
      intro after middle split front behind
      cases front with
      | cons next rest =>
        have met := guards [] action (before ++ after) _ split (.nil _)
          (.cons next (rest.append behind))
        refine ih ((keep _ _ _ start next).mpr met) (before ++ after) ?_ after middle rfl rest behind
        intro front other behind middle split run further
        exact guards (action :: front) other behind middle (by rw [‹actions = _›, List.cons_append, split]; rfl)
          (.cons next run) further

end Transition
