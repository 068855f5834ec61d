import Mathlib.Data.List.Basic

/-!
A block of memory that items are written into.
-/

namespace Buffer

variable {α : Type} {buffer after items : List α} {place count : Nat}

/-- Items written from a place on. There is no result where they run past the end. -/
def write (buffer : List α) (place : Nat) (items : List α) : Option (List α) :=
  if place + items.length ≤ buffer.length then
    some (buffer.take place ++ items ++ buffer.drop (place + items.length))
  else none

theorem exists_write (fits : place + items.length ≤ buffer.length) :
    ∃ after, write buffer place items = some after :=
  ⟨_, if_pos fits⟩

theorem write_some (written : write buffer place items = some after) :
    place + items.length ≤ buffer.length ∧
      after = buffer.take place ++ items ++ buffer.drop (place + items.length) := by
  unfold write at written
  split at written
  · rename_i fits
    exact ⟨fits, (Option.some.inj written).symm⟩
  · cases written

theorem length_write (written : write buffer place items = some after) :
    after.length = buffer.length := by
  obtain ⟨fits, rfl⟩ := write_some written
  simp only [List.length_append, List.length_take, List.length_drop]
  omega

/-- What lies in front of the items stays. -/
theorem take_write (written : write buffer place items = some after) (front : count ≤ place) :
    after.take count = buffer.take count := by
  obtain ⟨fits, rfl⟩ := write_some written
  have inside : count ≤ (buffer.take place).length := by
    rw [List.length_take]
    omega
  rw [List.append_assoc, List.take_append_of_le_length inside, List.take_take, Nat.min_eq_left front]

theorem take_write_end (written : write buffer place items = some after) :
    after.take (place + items.length) = buffer.take place ++ items := by
  obtain ⟨fits, rfl⟩ := write_some written
  apply List.take_left'
  rw [List.length_append, List.length_take]
  omega

/-- What lies behind the items stays. -/
theorem drop_write (written : write buffer place items = some after)
    (behind : place + items.length ≤ count) : after.drop count = buffer.drop count := by
  obtain ⟨fits, rfl⟩ := write_some written
  obtain ⟨more, rfl⟩ := Nat.exists_eq_add_of_le behind
  have size : (buffer.take place ++ items).length = place + items.length := by
    rw [List.length_append, List.length_take]
    omega
  rw [← List.drop_drop, ← size, List.drop_left, size, List.drop_drop]

end Buffer
