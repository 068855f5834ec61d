import Mathlib.Data.List.Nodup
import Mathlib.Data.List.Perm.Subperm
import Mathlib.Logic.Relation

/-!
A recursion along the edges of a graph: where no cycle is met, it nests no deeper than there
are nodes.
-/

namespace Descent

open Relation

variable {α : Type} {edge : α → α → Prop} {node child root : α}

/-- From a node no cycle is reached. -/
def CycleFree (edge : α → α → Prop) (node : α) : Prop :=
  ∀ reached, ReflTransGen edge node reached → ¬TransGen edge reached reached

/-- What is met below a node is met at it, or below one of the next. -/
theorem reached_cases (path : ReflTransGen edge node reached) :
    reached = node ∨ ∃ next, edge node next ∧ ReflTransGen edge next reached := by
  rcases path.cases_head with same | ⟨next, down, further⟩
  · exact .inl same.symm
  · exact .inr ⟨next, down, further⟩

/-- No cycle is reached from a node if none is from those its edges lead to. -/
theorem cycleFree_of_next (below : ∀ next, edge node next → CycleFree edge next) :
    CycleFree edge node := by
  intro reached path cycle
  rcases reached_cases path with rfl | ⟨next, down, further⟩
  · obtain ⟨next, down, back⟩ := TransGen.head'_iff.mp cycle
    exact below next down reached back cycle
  · exact below next down reached further cycle

/-- The rule of the recursion, with the nodes it is inside of. -/
theorem induction_inside {P : Nat → α → Prop} (nodes : List α)
    (inside : ∀ node, ReflTransGen edge root node → node ∈ nodes) (free : CycleFree edge root)
    (step : ∀ fuel node, ReflTransGen edge root node →
      (∀ next, edge node next → P fuel next) → P (fuel + 1) node)
    (fuel : Nat) (path : List α) (node : α) (reached : ReflTransGen edge root node)
    (distinct : path.Nodup) (above : ∀ outer ∈ path, outer ∈ nodes ∧ TransGen edge outer node)
    (enough : nodes.length ≤ fuel + path.length) : P fuel node := by
  have fresh : node ∉ path := fun again => free node reached (above node again).2
  have longer : (node :: path).Nodup := List.nodup_cons.mpr ⟨fresh, distinct⟩
  induction fuel generalizing path node with
  | zero =>
    have all : node :: path ⊆ nodes := by
      intro member present
      rcases List.mem_cons.mp present with rfl | outer
      · exact inside member reached
      · exact (above member outer).1
    have short := (longer.subperm all).length_le
    rw [List.length_cons] at short
    omega
  | succ fuel ih =>
    apply step fuel node reached
    intro next down
    have reachedNext := reached.tail down
    have aboveNext : ∀ outer ∈ node :: path, outer ∈ nodes ∧ TransGen edge outer next := by
      intro outer member
      rcases List.mem_cons.mp member with rfl | outer
      · exact ⟨inside outer reached, .single down⟩
      · exact ⟨(above _ outer).1, (above _ outer).2.tail down⟩
    have freshNext : next ∉ node :: path :=
      fun again => free next reachedNext (aboveNext next again).2
    refine ih (node :: path) next reachedNext longer aboveNext ?_ freshNext
      (List.nodup_cons.mpr ⟨freshNext, longer⟩)
    rw [List.length_cons]
    omega

/-- Fuel for each node is enough for a recursion that meets no cycle. -/
theorem induction_nodes {P : Nat → α → Prop} (nodes : List α)
    (inside : ∀ node, ReflTransGen edge root node → node ∈ nodes) (free : CycleFree edge root)
    (step : ∀ fuel node, ReflTransGen edge root node →
      (∀ next, edge node next → P fuel next) → P (fuel + 1) node)
    (enough : nodes.length ≤ fuel) : P fuel root :=
  induction_inside nodes inside free step fuel [] root .refl List.nodup_nil
    (fun _ member => nomatch member) enough

end Descent
