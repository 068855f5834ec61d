import HandlebarsC.Foundation.Effect

/-!
Procedures and what they are for: a result says what a procedure returns or how it fails, and
the rules follow the binds of both.
-/

namespace Effect

/-- How a failure shows in the state in which a procedure has thrown or aborted. -/
structure Signs (φ σ : Type) where
  thrown : φ → σ → Prop
  aborted : φ → σ → Prop

/-- The ending that a result describes; `post` is what holds of a normal return. -/
def Outcome.Shows (signs : Signs φ σ) (post : α → β → σ → Prop) :
    Except φ α → Outcome σ β → Prop
  | .ok value, .ok returned state => post value returned state
  | .error failure, .thrown state => signs.thrown failure state
  | .error failure, .aborted state => signs.aborted failure state
  | _, _ => False

namespace Proc

/-- The procedure ends as the result says. -/
def Does (signs : Signs φ σ) (proc : Proc σ ε β) (result : Except φ α)
    (post : α → β → σ → Prop) (state : σ) : Prop :=
  (proc state).1.Shows signs post result

variable {signs : Signs φ σ} {state : σ}

theorem does_mono {proc : Proc σ ε β} {result : Except φ α} {stronger post : α → β → σ → Prop}
    (does : proc.Does signs result stronger state)
    (weaker : ∀ value returned after, stronger value returned after → post value returned after) :
    proc.Does signs result post state := by
  unfold Does at does ⊢
  generalize (proc state).1 = outcome at does ⊢
  cases result with
  | ok value =>
    cases outcome with
    | ok returned after => exact weaker _ _ _ does
    | thrown after | aborted after | exhausted after => exact does
  | error failure => cases outcome <;> exact does

/-- The binds of a procedure and of its result. -/
theorem does_bind {first : Proc σ ε β} {next : β → Proc σ ε δ} {result : Except φ α}
    {later : α → Except φ γ} {middle : α → β → σ → Prop} {post : γ → δ → σ → Prop}
    (start : first.Does signs result middle state)
    (rest : ∀ value returned after, result = .ok value → middle value returned after →
      (next returned).Does signs (later value) post after) :
    (first >>= next).Does signs (result >>= later) post state := by
  unfold Does at start ⊢
  rw [bind_outcome]
  generalize (first state).1 = outcome at start ⊢
  cases result with
  | ok value =>
    cases outcome with
    | ok returned after => exact rest value returned after rfl start
    | thrown after | aborted after | exhausted after => exact False.elim start
  | error failure =>
    cases outcome with
    | ok returned after | exhausted after => exact False.elim start
    | thrown after | aborted after => exact start

/-- The same procedure, for something made of its result. -/
theorem does_map {proc : Proc σ ε β} {result : Except φ α} {change : α → γ}
    {middle : α → β → σ → Prop} {post : γ → β → σ → Prop}
    (does : proc.Does signs result middle state)
    (rest : ∀ value returned after, result = .ok value → middle value returned after →
      post (change value) returned after) :
    proc.Does signs (result >>= fun value => pure (change value)) post state := by
  rw [← bind_pure proc]
  exact does_bind does fun value returned after same held => rest value returned after same held

/-- A part that cannot fail adds nothing to the result. -/
theorem does_step {first : Proc σ ε β} {next : β → Proc σ ε δ} {value : α} {result : Except φ γ}
    {middle : α → β → σ → Prop} {post : γ → δ → σ → Prop}
    (start : first.Does signs (.ok value) middle state)
    (rest : ∀ returned after, middle value returned after →
      (next returned).Does signs result post after) :
    (first >>= next).Does signs result post state := by
  unfold Does at start ⊢
  rw [bind_outcome]
  generalize (first state).1 = outcome at start ⊢
  cases outcome with
  | ok returned after => exact rest returned after start
  | thrown after | aborted after | exhausted after => exact False.elim start

/-- After a step that is known -/
theorem does_ran {first : Proc σ ε β} {next : β → Proc σ ε δ} {between : σ} {log : List ε}
    {result : Except φ γ} {post : γ → δ → σ → Prop} (ran : first state = (.ok value between, log))
    (rest : (next value).Does signs result post between) :
    (first >>= next).Does signs result post state := by
  unfold Does at rest ⊢
  rw [bind_outcome, ran]
  exact rest

/-- A run that is known -/
theorem does_end {proc : Proc σ ε β} {value : α} {returned : β} {after : σ} {log : List ε}
    {post : α → β → σ → Prop} (ran : proc state = (.ok returned after, log))
    (holds : post value returned after) : proc.Does signs (.ok value) post state := by
  unfold Does
  rw [ran]
  exact holds

/-- A procedure that cannot fail, with any value for its result -/
theorem does_for {proc : Proc σ ε β} {post : α → β → σ → Prop} (value : α)
    (does : proc.Does signs (.ok ()) (fun _ => post value) state) :
    proc.Does signs (.ok value) post state := by
  unfold Does at does ⊢
  generalize (proc state).1 = outcome at does ⊢
  cases outcome with
  | ok returned after => exact does
  | thrown after | aborted after | exhausted after => exact False.elim does

theorem does_read {view : σ → α} {next : α → Proc σ ε δ} {result : Except φ γ}
    {post : γ → δ → σ → Prop} (rest : (next (view state)).Does signs result post state) :
    (read view >>= next).Does signs result post state :=
  does_ran rfl rest

end Proc

end Effect
