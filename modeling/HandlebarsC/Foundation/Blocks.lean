import Mathlib.Algebra.BigOperators.Group.List.Basic
import Mathlib.Algebra.GroupWithZero.Nat

/-!
Consecutive blocks: a list of widths cuts an interval into blocks, the `i`-th of
which starts where the widths before it end.
-/

namespace Blocks

/-- Where the `index`-th block starts. -/
def start (widths : List Nat) (index : Nat) : Nat :=
  (widths.take index).sum

@[simp] theorem start_zero (widths : List Nat) : start widths 0 = 0 := by
  simp [start]

@[simp] theorem start_cons (width : Nat) (widths : List Nat) (index : Nat) :
    start (width :: widths) (index + 1) = width + start widths index := by
  simp [start]

theorem start_succ (widths : List Nat) (index : Nat) (bound : index < widths.length) :
    start widths (index + 1) = start widths index + widths[index] := by
  simp [start, List.sum_take_succ _ _ bound]

theorem start_mono (widths : List Nat) {low high : Nat} (order : low ≤ high) :
    start widths low ≤ start widths high := by
  induction widths generalizing low high with
  | nil => simp [start]
  | cons width widths ih =>
    cases low with
    | zero => simp
    | succ low =>
      cases high with
      | zero => omega
      | succ high =>
        have later := ih (Nat.le_of_succ_le_succ order)
        simpa using later

theorem start_length (widths : List Nat) : start widths widths.length = widths.sum := by
  simp [start]

theorem stop_le_sum (widths : List Nat) (index : Nat) (bound : index < widths.length) :
    start widths index + widths[index] ≤ widths.sum := by
  rw [← start_succ widths index bound, ← start_length widths]
  exact start_mono widths bound

/-- `position` lies in the `index`-th block. -/
def Inside (widths : List Nat) (index position : Nat) : Prop :=
  ∃ width, widths[index]? = some width ∧
    start widths index ≤ position ∧ position < start widths index + width

theorem exists_inside (widths : List Nat) (position : Nat) (bound : position < widths.sum) :
    ∃ index, Inside widths index position := by
  induction widths generalizing position with
  | nil => simp at bound
  | cons width widths ih =>
    by_cases first : position < width
    · exact ⟨0, width, rfl, by simp, by simpa using first⟩
    · obtain ⟨index, found, present, low, high⟩ :=
        ih (position - width) (by simp at bound; omega)
      exact ⟨index + 1, found, by simpa using present, by simp; omega, by simp; omega⟩

theorem inside_unique (left : Inside widths low position) (right : Inside widths high position) :
    low = high := by
  obtain ⟨lowWidth, lowPresent, lowStart, lowStop⟩ := left
  obtain ⟨highWidth, highPresent, highStart, highStop⟩ := right
  obtain ⟨lowBound, rfl⟩ := List.getElem?_eq_some_iff.mp lowPresent
  obtain ⟨highBound, rfl⟩ := List.getElem?_eq_some_iff.mp highPresent
  rcases Nat.lt_trichotomy low high with before | same | after
  · have apart := start_mono widths (show low + 1 ≤ high from before)
    rw [start_succ widths low lowBound] at apart
    omega
  · exact same
  · have apart := start_mono widths (show high + 1 ≤ low from after)
    rw [start_succ widths high highBound] at apart
    omega

end Blocks
