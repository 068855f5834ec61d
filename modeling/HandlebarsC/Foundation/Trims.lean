/-!
What is left of a list when parts at its front and at its back are taken away.
-/

namespace Trims

variable {α : Type} {blank : α → Prop} {text rest last : List α}

/-- What is left of a text is inside of blanks. -/
def Trimmed (blank : α → Prop) (text rest : List α) : Prop :=
  ∃ front back, text = front ++ rest ++ back ∧ (∀ char ∈ front, blank char) ∧
    ∀ char ∈ back, blank char

theorem Trimmed.refl (text : List α) : Trimmed blank text text :=
  ⟨[], [], by simp, by simp, by simp⟩

theorem Trimmed.trans (first : Trimmed blank text rest) (second : Trimmed blank rest last) :
    Trimmed blank text last := by
  obtain ⟨front, back, rfl, frontBlank, backBlank⟩ := first
  obtain ⟨front', back', rfl, frontBlank', backBlank'⟩ := second
  refine ⟨front ++ front', back' ++ back, by simp, ?_, ?_⟩
  · intro char member
    exact (List.mem_append.mp member).elim (frontBlank char) (frontBlank' char)
  · intro char member
    exact (List.mem_append.mp member).elim (backBlank' char) (backBlank char)

/-- Trimming takes nothing that is visible. -/
theorem Trimmed.visible [DecidablePred blank] (trimmed : Trimmed blank text rest) :
    text.filter (¬blank ·) = rest.filter (¬blank ·) := by
  obtain ⟨front, back, rfl, frontBlank, backBlank⟩ := trimmed
  have noFront : front.filter (¬blank ·) = [] :=
    List.filter_eq_nil_iff.mpr fun char member => by simpa using frontBlank char member
  have noBack : back.filter (¬blank ·) = [] :=
    List.filter_eq_nil_iff.mpr fun char member => by simpa using backBlank char member
  rw [List.filter_append, List.filter_append, noFront, noBack, List.nil_append, List.append_nil]

end Trims
