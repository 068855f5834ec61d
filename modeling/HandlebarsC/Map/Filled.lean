import HandlebarsC.Map.Operations

/-!
A map that is made for a number of pairs takes them in its first table.
-/

namespace HandlebarsC

namespace Map

variable {α : Type} {hash : StringHash} {map after : Map α} {key : Str} {value : α}

/-- The map has room for so many more pairs. -/
structure Takes (hash : StringHash) (left : Nat) (map : Map α) : Prop where
  intact : Intact hash map
  refcount : map.refcount = 0
  room : map.vecOffset + left ≤ map.vecCapacity

/-- There is no table for a larger map. -/
theorem ctor_iff (capacity : Nat) :
    (∃ map : Map α, Map.ctor capacity = .ok map) ↔ capacity ≤ maxCapacity := by
  unfold ctor
  constructor
  · rintro ⟨map, created⟩
    split at created
    · rename_i table chosen
      exact (chooseTableCapacity_spec chosen).2.2
    · cases created
  · intro small
    obtain ⟨table, chosen⟩ := chooseTableCapacity_some small
    rw [chosen]
    exact ⟨_, rfl⟩

theorem Takes.ctor (hash : StringHash) (created : Map.ctor capacity = .ok map) :
    Takes hash capacity map ∧ map.pairs = [] := by
  obtain ⟨_, same, intact, pairs⟩ :=
    Intact.ctor (α := α) hash ((ctor_iff (α := α) capacity).mp ⟨map, created⟩)
  cases created.symm.trans same
  obtain ⟨-, -, offset, vec, -, refcount, -, -⟩ := Valid.ctor hash created
  refine ⟨⟨intact, refcount, ?_⟩, pairs⟩
  rw [offset, vec, Nat.zero_add]

theorem Takes.calm (takes : Takes hash (left + 1) map) : Calm map := by
  have room := takes.room
  have count := takes.intact.valid.i_le
  refine ⟨takes.intact.isInIteration, Nat.le_of_eq takes.refcount |>.trans (Nat.zero_le 1), ?_, ?_⟩
  · omega
  · exact takes.intact.sized.loadFactor_le (by omega)

theorem addAtTableOffset_ok (added : map.addAtTableOffset key value offset = .ok after) :
    after.refcount = map.refcount ∧ after.vecOffset = map.vecOffset + 1 ∧
      after.vecCapacity = map.vecCapacity := by
  unfold addAtTableOffset at added
  split at added
  · cases added
    exact ⟨rfl, rfl, List.length_set⟩
  · cases added

/-- An update takes one place at most, and does to the pairs what it is for. -/
theorem Takes.update (takes : Takes hash (left + 1) map) (key : Str) (value : α) :
    ∃ after, map.update hash key value = .ok after ∧ Takes hash left after ∧
      after.pairs = StrMap.update hash map.pairs key value := by
  have room := takes.room
  have calm := takes.calm
  have rehashed : Map.rehash hash map false = .ok map := rehashWithin_calm 1 calm
  by_cases absent : Absent hash map key
  · obtain ⟨ret, after, found, noEntry, emptyFound, added, intact, pairs⟩ :=
      takes.intact.insert calm.room absent value
    obtain ⟨refcount, offset, vec⟩ := addAtTableOffset_ok added
    have nothing : StrMap.find hash map.pairs key = none :=
      StrMap.find_eq_none.mpr (absent_iff_pairs.mp absent)
    refine ⟨after, (update_eq rehashed found noEntry emptyFound value).trans added,
      ⟨intact, refcount.trans takes.refcount, ?_⟩, ?_⟩
    · rw [offset, vec]
      omega
    · rw [pairs, StrMap.update, nothing]
  · obtain ⟨index, entry, held, same⟩ := not_absent absent
    obtain ⟨ret, found, place⟩ := takes.intact.valid.findEntry_present held same
    obtain ⟨intact, pairs⟩ := takes.intact.assigned held same value
    have vec : (map.assigned index value).vecCapacity = map.vecCapacity :=
      List.length_modify _ _ _
    obtain ⟨old, something⟩ : ∃ old, StrMap.find hash map.pairs key = some old := by
      apply Option.ne_none_iff_exists'.mp
      intro nothing
      exact absent (absent_iff_pairs.mpr (StrMap.find_eq_none.mp nothing))
    refine ⟨map.assigned index value, update_found rehashed found place value,
      ⟨intact, takes.refcount, ?_⟩, ?_⟩
    · rw [vec]
      change map.vecOffset + left ≤ _
      omega
    · rw [pairs, StrMap.update, something]

end Map

end HandlebarsC
