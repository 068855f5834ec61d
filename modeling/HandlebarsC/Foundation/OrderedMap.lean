import Mathlib.Data.List.Nodup
import Mathlib.Data.List.Perm.Lattice

/-!
Finite maps that keep the order in which their keys came in.
-/

/-- Keys with their values, each key once. -/
structure OrderedMap (κ α : Type) where
  pairs : List (κ × α)
  distinct : (pairs.map Prod.fst).Nodup

namespace OrderedMap

variable {κ α : Type} [DecidableEq κ] {map : OrderedMap κ α} {key other : κ} {value : α}

def empty : OrderedMap κ α := ⟨[], List.nodup_nil⟩

def keys (map : OrderedMap κ α) : List κ := map.pairs.map Prod.fst

def count (map : OrderedMap κ α) : Nat := map.pairs.length

def find (map : OrderedMap κ α) (key : κ) : Option α :=
  (map.pairs.find? fun pair => pair.1 = key).map Prod.snd

/-- A new key comes last. -/
def append (map : OrderedMap κ α) (key : κ) (value : α) (absent : key ∉ map.keys) :
    OrderedMap κ α :=
  ⟨map.pairs ++ [(key, value)], by
    rw [List.map_append, List.nodup_append]
    refine ⟨map.distinct, List.nodup_singleton _, ?_⟩
    rintro stored member added single rfl
    rw [List.mem_singleton.mp single] at member
    exact absent member⟩

/-- A key keeps its place when its value changes. -/
def assign (map : OrderedMap κ α) (key : κ) (value : α) : OrderedMap κ α :=
  ⟨map.pairs.map fun pair => if pair.1 = key then (pair.1, value) else pair, by
    rw [List.map_map]
    have same : (Prod.fst ∘ fun pair : κ × α => if pair.1 = key then (pair.1, value) else pair) =
        Prod.fst := by
      funext pair
      rw [Function.comp_apply]
      split <;> rfl
    rw [same]
    exact map.distinct⟩

def erase (map : OrderedMap κ α) (key : κ) : OrderedMap κ α :=
  ⟨map.pairs.filter fun pair => pair.1 ≠ key,
    (List.filter_sublist.map Prod.fst).nodup map.distinct⟩

/-- Adds a key or changes its value. -/
def update (map : OrderedMap κ α) (key : κ) (value : α) : OrderedMap κ α :=
  if absent : key ∈ map.keys then map.assign key value else map.append key value absent

/-- Adds a key that is not there. -/
def add (map : OrderedMap κ α) (key : κ) (value : α) : OrderedMap κ α :=
  if absent : key ∈ map.keys then map else map.append key value absent

theorem find_eq_none : map.find key = none ↔ key ∉ map.keys := by
  unfold find keys
  rw [Option.map_eq_none_iff, List.find?_eq_none, List.mem_map]
  constructor
  · rintro none ⟨pair, member, same⟩
    exact none pair member (decide_eq_true same)
  · intro absent pair member same
    exact absent ⟨pair, member, of_decide_eq_true same⟩

/-- A pair of the map is what a search for its key finds. -/
theorem find_eq_some : map.find key = some value ↔ (key, value) ∈ map.pairs := by
  unfold find
  rw [Option.map_eq_some_iff]
  constructor
  · rintro ⟨⟨stored, held⟩, found, rfl⟩
    have same := List.find?_some found
    rw [decide_eq_true_eq] at same
    rw [← same]
    exact List.mem_of_find?_eq_some found
  · intro member
    cases found : map.pairs.find? fun pair => pair.1 = key with
    | none =>
      rw [List.find?_eq_none] at found
      exact absurd (decide_eq_true rfl) (found _ member)
    | some pair =>
      have same := List.find?_some found
      rw [decide_eq_true_eq] at same
      have unique := List.inj_on_of_nodup_map map.distinct (List.mem_of_find?_eq_some found)
        member same
      exact ⟨pair, rfl, congrArg Prod.snd unique⟩

/-- Maps with the same pairs in any order find the same. -/
theorem find_congr {left right : OrderedMap κ α} (same : left.pairs.Perm right.pairs) :
    left.find key = right.find key := by
  apply Option.ext
  intro value
  rw [find_eq_some, find_eq_some]
  exact same.mem_iff

theorem find_append (absent : key ∉ map.keys) :
    (map.append key value absent).find other =
      if key = other then some value else map.find other := by
  unfold find append
  rw [List.find?_append]
  by_cases same : key = other
  · subst same
    have none := find_eq_none.mpr absent
    rw [find, Option.map_eq_none_iff] at none
    rw [none, if_pos rfl]
    simp
  · rw [if_neg same]
    simp [same]

theorem find_assign (present : key ∈ map.keys) :
    (map.assign key value).find other = if key = other then some value else map.find other := by
  unfold find assign
  have test : (fun pair : κ × α => decide (pair.1 = other)) ∘
      (fun pair => if pair.1 = key then (pair.1, value) else pair) =
      fun pair => decide (pair.1 = other) := by
    funext pair
    rw [Function.comp_apply]
    split <;> rfl
  rw [List.find?_map, test, Option.map_map]
  by_cases same : key = other
  · subst same
    obtain ⟨held, found⟩ := Option.ne_none_iff_exists'.mp (mt find_eq_none.mp (not_not.mpr present))
    obtain ⟨pair, first, -⟩ := Option.map_eq_some_iff.mp found
    have stored := List.find?_some first
    rw [decide_eq_true_eq] at stored
    rw [first, if_pos rfl, Option.map_some, Function.comp_apply, if_pos stored]
  · rw [if_neg same]
    cases found : map.pairs.find? fun pair => decide (pair.1 = other) with
    | none => rfl
    | some pair =>
      have stored := List.find?_some found
      rw [decide_eq_true_eq] at stored
      rw [Option.map_some, Option.map_some, Function.comp_apply, if_neg]
      rw [stored]
      exact Ne.symm same

theorem find_erase :
    (map.erase key).find other = if key = other then none else map.find other := by
  by_cases same : key = other
  · subst same
    rw [if_pos rfl, find_eq_none]
    unfold keys erase
    simp
  · rw [if_neg same]
    apply Option.ext
    intro value
    rw [find_eq_some, find_eq_some, erase, List.mem_filter]
    simp [Ne.symm same]

theorem find_update :
    (map.update key value).find other = if key = other then some value else map.find other := by
  unfold update
  split
  · rename_i present
    exact find_assign present
  · rename_i absent
    exact find_append absent

theorem find_add :
    (map.add key value).find other =
      if key = other then some ((map.find key).getD value) else map.find other := by
  unfold add
  split
  · rename_i present
    obtain ⟨held, found⟩ := Option.ne_none_iff_exists'.mp (mt find_eq_none.mp (not_not.mpr present))
    by_cases same : key = other
    · subst same
      rw [if_pos rfl, found]
      rfl
    · rw [if_neg same]
  · rename_i absent
    rw [find_append absent, find_eq_none.mpr absent]
    rfl

end OrderedMap
