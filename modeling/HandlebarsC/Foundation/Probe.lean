import Mathlib.Data.Nat.Find
import Mathlib.Data.Nat.ModEq
import Mathlib.Data.List.Basic

/-!
Linear probing: the places of a table in the order in which a search visits them, and
the places it can reach before it meets a free one.
-/

namespace Probe

/-- The place a search visits after so many steps. -/
def place (size start steps : Nat) : Nat := (start + steps) % size

theorem place_lt (positive : 0 < size) (start steps : Nat) : place size start steps < size :=
  Nat.mod_lt _ positive

/-- Every place is visited within one round. -/
theorem exists_steps (bound : position < size) (start : Nat) :
    ∃ steps < size, place size start steps = position := by
  have positive : 0 < size := Nat.zero_lt_of_lt bound
  have reduced := Nat.mod_lt start positive
  refine ⟨(position + (size - start % size)) % size, Nat.mod_lt _ positive, ?_⟩
  rw [place, Nat.add_mod_mod, ← Nat.mod_add_mod,
    show start % size + (position + (size - start % size)) = position + size by omega,
    Nat.add_mod_right, Nat.mod_eq_of_lt bound]

/-- No place is visited twice within one round. -/
theorem steps_unique (boundLeft : left < size) (boundRight : right < size)
    (same : place size start left = place size start right) : left = right := by
  have congruent : left ≡ right [MOD size] := Nat.ModEq.add_left_cancel' start same
  exact Nat.ModEq.eq_of_lt_of_lt congruent boundLeft boundRight

/-- A search from `start` comes to the position before it meets a free place. -/
def Reached (free : σ → Prop) (slots : List σ) (start position : Nat) : Prop :=
  ∃ steps < slots.length, place slots.length start steps = position ∧
    ∀ earlier < steps, ∀ slot, slots[place slots.length start earlier]? = some slot → ¬free slot

variable {free : σ → Prop} {slots : List σ} {start position : Nat}

/-- Filling a place, free or not, keeps what was reached. -/
theorem Reached.set (reached : Reached free slots start position) (taken : ¬free value)
    (changed : Nat) : Reached free (slots.set changed value) start position := by
  obtain ⟨steps, bound, arrived, before⟩ := reached
  refine ⟨steps, ?_, ?_, ?_⟩
  · rw [List.length_set]
    exact bound
  · rw [List.length_set]
    exact arrived
  · intro earlier order slot present
    rw [List.length_set, List.getElem?_set] at present
    split at present
    · split at present
      · cases present
        exact taken
      · cases present
    · exact before earlier order slot present

/-- Where there is a free place, a search comes to one before any other. -/
theorem exists_first_free (free : σ → Prop) [DecidablePred free]
    (present : slots[position]? = some slot) (isFree : free slot) (start : Nat) :
    ∃ steps < slots.length, (∃ found, slots[place slots.length start steps]? = some found ∧
      free found) ∧
      ∀ earlier < steps, ∀ other, slots[place slots.length start earlier]? = some other →
        ¬free other := by
  have bound := (List.getElem?_eq_some_iff.mp present).1
  obtain ⟨steps, inside, arrived⟩ := exists_steps bound start
  have some : ∃ steps, ∃ found, slots[place slots.length start steps]? = some found ∧ free found :=
    ⟨steps, slot, by rw [arrived]; exact present, isFree⟩
  refine ⟨Nat.find some, ?_, Nat.find_spec some, ?_⟩
  · exact Nat.lt_of_le_of_lt
      (Nat.find_min' some ⟨slot, by rw [arrived]; exact present, isFree⟩) inside
  · intro earlier order other there otherFree
    exact Nat.find_min some order ⟨other, there, otherFree⟩

end Probe
