/-!
Results that may fail: relations between two of them that the binds of both keep, and what a
failure can be.
-/

namespace Results

/-- What a bind returns, its rest has made of what its first part returned. -/
theorem bind_ok {first : Except φ α} {next : α → Except φ β} (same : first >>= next = .ok value) :
    ∃ middle, first = .ok middle ∧ next middle = .ok value := by
  cases first with
  | error failure => cases same
  | ok middle => exact ⟨middle, rfl, same⟩

/-- A relation between results: any result is related to itself, and related results with related
rests are related. -/
structure Congruence (R : ∀ {α : Type}, Except φ α → Except φ α → Prop) : Prop where
  refl {α : Type} (result : Except φ α) : R result result
  bind {α β : Type} {first second : Except φ α} {next other : α → Except φ β} (start : R first second)
    (rest : ∀ value, first = .ok value → R (next value) (other value)) :
    R (first >>= next) (second >>= other)

/-- A value of the first result is that of the second; where the first fails, the second may do
anything. -/
def Keeps (first second : Except φ α) : Prop := ∀ value, first = .ok value → second = .ok value

theorem congruence_keeps : Congruence (φ := φ) Keeps where
  refl _ _ same := same
  bind := by
    intro α β first second next other start rest value same
    cases returned : first with
    | error failure =>
      rw [returned] at same
      cases same
    | ok middle =>
      rw [returned] at same
      rw [start middle returned]
      exact rest middle returned value same

theorem congruence_eq : Congruence (φ := φ) fun first second => first = second where
  refl _ := rfl
  bind := by
    rintro α β first _ next other rfl rest
    cases first with
    | error failure => rfl
    | ok value => exact rest value rfl

variable {R : ∀ {α : Type}, Except φ α → Except φ α → Prop}

/-- The same change of related results -/
theorem Congruence.map (congruence : Congruence R) {first second : Except φ α} (start : R first second)
    (next : α → Except φ β) : R (first >>= next) (second >>= next) :=
  congruence.bind start fun value _ => congruence.refl (next value)

/-- Where the result fails, it is with such a failure. -/
def Fails (P : φ → Prop) (result : Except φ α) : Prop := ∀ failure, result = .error failure → P failure

section Failures

variable {P Q : φ → Prop}

theorem fails_ok (value : α) : Fails P (.ok value) := by
  intro failure same
  cases same

theorem fails_error {failure : φ} (holds : P failure) : Fails P (.error failure : Except φ α) := by
  rintro _ ⟨⟩
  exact holds

theorem Fails.mono {result : Except φ α} (fails : Fails P result)
    (weaker : ∀ failure, P failure → Q failure) : Fails Q result :=
  fun failure same => weaker failure (fails failure same)

theorem Fails.bind {first : Except φ α} {next : α → Except φ β} (start : Fails P first)
    (rest : ∀ value, first = .ok value → Fails P (next value)) : Fails P (first >>= next) := by
  cases first with
  | error failure => exact fails_error (start failure rfl)
  | ok value => exact rest value rfl

theorem Fails.map {first : Except φ α} (start : Fails P first) (next : α → β) :
    Fails P (first >>= fun value => pure (next value)) :=
  start.bind fun value _ => fails_ok (next value)

end Failures

end Results
