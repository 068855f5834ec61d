import Mathlib.Data.List.Basic

/-!
Deterministic machines that go from state to state until they end with a result: when
they end, and what holds of every state they reach.
-/

namespace Machine

/-- What one step does. -/
inductive Turn (σ ρ : Type) where
  | goes (next : σ)
  | ends (result : ρ)
  deriving DecidableEq

variable {σ ρ : Type}

def run (step : σ → Turn σ ρ) : Nat → σ → Option ρ
  | 0, _ => none
  | fuel + 1, state =>
    match step state with
    | .goes next => run step fuel next
    | .ends result => some result

/-- After finitely many steps the machine ends with a result. -/
def Ends (step : σ → Turn σ ρ) (state : σ) (result : ρ) : Prop :=
  ∃ fuel, run step fuel state = some result

inductive Reaches (step : σ → Turn σ ρ) : σ → σ → Prop where
  | refl (state : σ) : Reaches step state state
  | step (first : step state = .goes next) (later : Reaches step next last) : Reaches step state last

variable {step : σ → Turn σ ρ}

theorem run_goes (first : step state = .goes next) (fuel : Nat) :
    run step (fuel + 1) state = run step fuel next := by
  rw [run, first]

theorem run_ends (last : step state = .ends result) (fuel : Nat) :
    run step (fuel + 1) state = some result := by
  rw [run, last]

theorem ends_of_step (last : step state = .ends result) : Ends step state result :=
  ⟨1, run_ends last 0⟩

theorem ends_goes (first : step state = .goes next) : Ends step state result ↔ Ends step next result := by
  constructor
  · rintro ⟨fuel, found⟩
    cases fuel with
    | zero => cases found
    | succ fuel => exact ⟨fuel, run_goes first fuel ▸ found⟩
  · rintro ⟨fuel, found⟩
    exact ⟨fuel + 1, (run_goes first fuel).trans found⟩

theorem ends_ends (last : step state = .ends result') : Ends step state result ↔ result' = result := by
  constructor
  · rintro ⟨fuel, found⟩
    cases fuel with
    | zero => cases found
    | succ fuel => exact Option.some.inj ((run_ends last fuel).symm.trans found)
  · rintro rfl
    exact ends_of_step last

/-- A machine ends with one result only. -/
theorem Ends.unique (first : Ends step state result) (second : Ends step state result') :
    result = result' := by
  obtain ⟨fuel, found⟩ := first
  induction fuel generalizing state with
  | zero => cases found
  | succ fuel ih =>
    cases turn : step state with
    | goes next => exact ih ((ends_goes turn).mp second) (run_goes turn fuel ▸ found)
    | ends last =>
      have same := Option.some.inj ((run_ends turn fuel).symm.trans found)
      exact same.symm.trans ((ends_ends turn).mp second)

theorem Reaches.trans (first : Reaches step state middle) (second : Reaches step middle last) :
    Reaches step state last := by
  induction first with
  | refl => exact second
  | step start _ ih => exact .step start (ih second)

theorem Reaches.ends_iff (reaches : Reaches step state last) :
    Ends step state result ↔ Ends step last result := by
  induction reaches with
  | refl => rfl
  | step first _ ih => exact (ends_goes first).trans ih

/-- What every step keeps holds of every state that is reached. -/
theorem Reaches.invariant (reaches : Reaches step state last) (inv : σ → Prop)
    (keep : ∀ state next, inv state → step state = .goes next → inv next) (start : inv state) :
    inv last := by
  induction reaches with
  | refl => exact start
  | step first _ ih => exact ih (keep _ _ start first)

/-- A machine whose steps lower a measure ends, at a state that it reaches. -/
theorem ends_of_measure (measure : σ → Nat) (inv : σ → Prop)
    (keep : ∀ state next, inv state → step state = .goes next → inv next ∧ measure next < measure state)
    (start : inv state) :
    ∃ last result, Reaches step state last ∧ inv last ∧ step last = .ends result := by
  generalize size : measure state = n
  induction n using Nat.strongRecOn generalizing state with
  | ind n ih =>
    cases turn : step state with
    | ends result => exact ⟨state, result, .refl state, start, turn⟩
    | goes next =>
      obtain ⟨kept, less⟩ := keep state next start turn
      obtain ⟨last, result, reaches, holds, ended⟩ := ih _ (size ▸ less) kept rfl
      exact ⟨last, result, .step turn reaches, holds, ended⟩

/-- States that always lead to one another never lead to a result. -/
theorem not_ends (loops : σ → Prop) (again : ∀ state, loops state → ∃ next, step state = .goes next ∧ loops next)
    (start : loops state) : ¬Ends step state result := by
  rintro ⟨fuel, found⟩
  induction fuel generalizing state with
  | zero => cases found
  | succ fuel ih =>
    obtain ⟨next, turn, kept⟩ := again state start
    exact ih kept (run_goes turn fuel ▸ found)

end Machine
