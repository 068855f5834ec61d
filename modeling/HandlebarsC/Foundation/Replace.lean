import Mathlib.Data.List.Basic
import Mathlib.Data.List.Infix

/-!
Texts in which the occurrences of a word are replaced, from the left and without overlap.
-/

namespace Replace

variable {α : Type}

/-- The word occurs behind `front`, and nowhere earlier. -/
structure First (word text front behind : List α) : Prop where
  here : text = front ++ word ++ behind
  leftmost : ∀ start < front.length, ¬word <+: text.drop start

/-- What becomes of a text: up to the first occurrence of the word it is kept, the occurrence
is replaced, and so on behind it. -/
inductive Replaced (word replacement : List α) : List α → List α → Prop where
  | kept {text : List α} (absent : ∀ start, ¬word <+: text.drop start) :
      Replaced word replacement text text
  | replaced {text front behind out : List α} (first : First word text front behind)
      (later : Replaced word replacement behind out) :
      Replaced word replacement text (front ++ replacement ++ out)

theorem First.occurs (first : First word text front behind) : word <+: text.drop front.length := by
  rw [first.here, List.append_assoc, List.drop_left]
  exact List.prefix_append word behind

theorem First.length_le (first : First word text front behind)
    (second : First word text otherFront otherBehind) : front.length ≤ otherFront.length := by
  apply Nat.le_of_not_lt
  intro earlier
  exact first.leftmost _ earlier second.occurs

theorem First.unique (first : First word text front behind)
    (second : First word text otherFront otherBehind) :
    front = otherFront ∧ behind = otherBehind := by
  have size := Nat.le_antisymm (first.length_le second) (second.length_le first)
  have same := first.here.symm.trans second.here
  rw [List.append_assoc, List.append_assoc] at same
  obtain ⟨fronts, rest⟩ := List.append_inj same size
  exact ⟨fronts, List.append_cancel_left rest⟩

theorem Replaced.unique (first : Replaced word replacement text out)
    (second : Replaced word replacement text other) : out = other := by
  induction first generalizing other with
  | kept absent =>
    cases second with
    | kept => rfl
    | replaced occurrence => exact absurd occurrence.occurs (absent _)
  | replaced occurrence later ih =>
    cases second with
    | kept absent => exact absurd occurrence.occurs (absent _)
    | replaced again laterAgain =>
      obtain ⟨rfl, rfl⟩ := occurrence.unique again
      rw [ih laterAgain]

/-- In an empty text there is nothing to replace. -/
theorem replaced_nil {word : List α} (some : word ≠ []) (replacement : List α) :
    Replaced word replacement [] [] := by
  apply Replaced.kept
  intro start occurs
  rw [List.drop_nil] at occurs
  exact some (List.prefix_nil.mp occurs)

end Replace
