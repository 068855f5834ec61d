import Mathlib.Data.List.Basic

/-!
Texts in which characters that mean something are written as entities.
-/

namespace Escape

variable {α : Type} {special : α → Prop} {entities : List (List α)}

/-- Every special character of the text starts an entity. -/
def Clean (special : α → Prop) (entities : List (List α)) (text : List α) : Prop :=
  ∀ before char after, text = before ++ char :: after → special char →
    ∃ entity ∈ entities, entity <+: char :: after

theorem Clean.nil : Clean special entities [] := by
  intro before char after same
  cases before <;> cases same

/-- A text without special characters is clean. -/
theorem Clean.plain (plain : ∀ char ∈ text, ¬special char) : Clean special entities text := by
  rintro before char after rfl isSpecial
  exact absurd isSpecial (plain char (by simp))

theorem Clean.append (left : Clean special entities first) (right : Clean special entities second) :
    Clean special entities (first ++ second) := by
  intro before char after same isSpecial
  rcases List.append_eq_append_iff.mp same with ⟨between, start, rest⟩ | ⟨between, start, rest⟩
  · exact right between char after rest isSpecial
  · cases between with
    | nil => exact right [] char after rest.symm isSpecial
    | cons head tail =>
      obtain ⟨rfl, rfl⟩ := List.cons.inj rest
      obtain ⟨entity, known, starts⟩ := left before char tail start isSpecial
      exact ⟨entity, known, starts.trans ⟨second, by simp⟩⟩

/-- An entity without special characters behind its first is clean. -/
theorem Clean.entity (known : head :: tail ∈ entities) (plain : ∀ char ∈ tail, ¬special char) :
    Clean special entities (head :: tail) := by
  intro before char after same isSpecial
  cases before with
  | nil => exact ⟨head :: tail, known, by simp [same]⟩
  | cons first rest =>
    obtain ⟨rfl, rfl⟩ := List.cons.inj same
    exact absurd isSpecial (plain char (by simp))

/-- A text escaped character by character is clean when each character is. -/
theorem Clean.flatMap (escape : β → List α) (clean : ∀ char, Clean special entities (escape char))
    (text : List β) : Clean special entities (text.flatMap escape) := by
  induction text with
  | nil => exact .nil
  | cons char rest ih => exact (clean char).append ih

/-- A special character that no entity starts with does not occur in a clean text. -/
theorem Clean.not_mem (clean : Clean special entities text) (isSpecial : special char)
    (starts : ∀ entity ∈ entities, ∃ head tail, entity = head :: tail ∧ head ≠ char) :
    char ∉ text := by
  intro member
  obtain ⟨before, after, rfl⟩ := List.append_of_mem member
  obtain ⟨entity, known, _, same⟩ := clean before char after rfl isSpecial
  obtain ⟨head, tail, rfl, different⟩ := starts entity known
  exact different (List.cons.inj same).1

/-- A text that is put together from given pieces and from clean ones. -/
inductive Pieced (special : α → Prop) (entities : List (List α)) (pieces : List α → Prop) :
    List α → Prop where
  | given (piece : pieces text) : Pieced special entities pieces text
  | clean (clean : Clean special entities text) : Pieced special entities pieces text
  | append (left : Pieced special entities pieces first)
      (right : Pieced special entities pieces second) :
      Pieced special entities pieces (first ++ second)

theorem Pieced.mono {pieces more : List α → Prop} (pieced : Pieced special entities pieces text)
    (wider : ∀ text, pieces text → more text) : Pieced special entities more text := by
  induction pieced with
  | given piece => exact .given (wider _ piece)
  | clean clean => exact .clean clean
  | append _ _ left right => exact .append left right

/-- A decoder that takes what one character was written as from the front of every text
gives back the text that was written character by character. -/
theorem decode_flatMap {encode : β → List α} {decode : List α → List β} (empty : decode [] = [])
    (step : ∀ char text, decode (encode char ++ text) = char :: decode text) (text : List β) :
    decode (text.flatMap encode) = text := by
  induction text with
  | nil => exact empty
  | cons char rest ih => rw [List.flatMap_cons, step, ih]

end Escape
