/-!
Codes that are read from the front of a text: what may follow a value tells where its code ends.
-/

namespace Codes

variable {α τ : Type} {code : α → List τ} {good : α → List τ → Prop} {ends : List τ → Prop}

/-- The code of a value is told from the codes of others, where what follows may follow them. -/
def Told (code : α → List τ) (good : α → List τ → Prop) (value : α) : Prop :=
  ∀ other rest rest', good value rest → good other rest' →
    code value ++ rest = code other ++ rest' → value = other ∧ rest = rest'

/-- Each value may be followed by the ones behind it, and the last one by the rest. -/
def Fits (code : α → List τ) (good : α → List τ → Prop) (ends : List τ → Prop) (rest : List τ) :
    List α → Prop
  | [] => ends rest
  | value :: values => good value (values.flatMap code ++ rest) ∧ Fits code good ends rest values

/-- A list of values is told, where no code looks like an end. -/
theorem told_list {values others : List α} {rest rest' : List τ}
    (told : ∀ value ∈ values, Told code good value)
    (begins : ∀ value rest, good value rest → ¬ends (code value ++ rest))
    (fits : Fits code good ends rest values) (fits' : Fits code good ends rest' others)
    (same : values.flatMap code ++ rest = others.flatMap code ++ rest') :
    values = others ∧ rest = rest' := by
  induction values generalizing others with
  | nil =>
    cases others with
    | nil => exact ⟨rfl, same⟩
    | cons other others =>
      rw [List.flatMap_cons, List.append_assoc] at same
      exact absurd (same ▸ fits) (begins other _ fits'.1)
  | cons value values ih =>
    rw [List.flatMap_cons, List.append_assoc] at same
    cases others with
    | nil => exact absurd (same ▸ fits') (begins value _ fits.1)
    | cons other others =>
      rw [List.flatMap_cons, List.append_assoc] at same
      obtain ⟨rfl, later⟩ := told value (.head _) other _ _ fits.1 fits'.1 same
      obtain ⟨rfl, rfl⟩ := ih (fun value member => told value (.tail _ member)) fits.2 fits'.2 later
      exact ⟨rfl, rfl⟩

/-- Where whatever follows a value in the list may follow it, the values fit. -/
theorem fits_of {rest : List τ} {inside : List τ → Prop}
    (follows : ∀ value rest, inside rest → good value rest)
    (begins : ∀ value rest, inside (code value ++ rest)) (last : ends rest) (behind : inside rest)
    (values : List α) : Fits code good ends rest values := by
  induction values with
  | nil => exact last
  | cons value values ih =>
    refine ⟨follows value _ ?_, ih⟩
    cases values with
    | nil => exact behind
    | cons next others =>
      rw [List.flatMap_cons, List.append_assoc]
      exact begins next _

theorem fits_free {rest : List τ} (last : ends rest) (values : List α) :
    Fits code (fun _ _ => True) ends rest values := by
  induction values with
  | nil => exact last
  | cons value values ih => exact ⟨trivial, ih⟩

/-- A list of values is told, where anything may follow a value but what looks like an end. -/
theorem told_free (code : α → List τ) (ends : List τ → Prop) {values others : List α}
    {rest rest' : List τ} (told : ∀ value, Told code (fun _ _ => True) value)
    (begins : ∀ value rest, ¬ends (code value ++ rest)) (last : ends rest) (last' : ends rest')
    (same : values.flatMap code ++ rest = others.flatMap code ++ rest') :
    values = others ∧ rest = rest' :=
  told_list (fun value _ => told value) (fun value rest _ => begins value rest)
    (fits_free last values) (fits_free last' others) same

end Codes
