import HandlebarsC.Map.Valid

/-!
The elementary changes of a map: a new map, an entry put in, taken out or changed.
Each keeps the representation invariant.
-/

namespace HandlebarsC

namespace Map

variable {α : Type} {hash : StringHash} {map : Map α} {key : Str}

/-- The free slots of the table. -/
def free (map : Map α) : Nat := map.table.count .null

theorem free_pos (room : 0 < map.free) : MapSlot.null ∈ map.table := List.count_pos_iff.mp room

theorem Valid.ctor (hash : StringHash) (created : Map.ctor capacity = .ok map) :
    Valid hash map ∧ map.entries = [] ∧ map.vecOffset = 0 ∧ map.vecCapacity = capacity ∧
      map.isInIteration = false ∧ map.refcount = 0 ∧
      chooseTableCapacity capacity = some map.tableCapacity ∧ map.free = map.tableCapacity := by
  unfold Map.ctor at created
  split at created
  · rename_i slots chosen
    cases created
    have none : ∀ index entry, ¬Holds (α := α)
        ⟨0, 0, false, 0, List.replicate capacity none, List.replicate slots .null⟩
        index entry := by
      intro index entry held
      exact absurd held.1 (Nat.not_lt_zero index)
    refine ⟨⟨Nat.zero_le _, rfl, ?_, ?_, ?_, ?_⟩, rfl, rfl, List.length_replicate, rfl, rfl, ?_, ?_⟩
    · exact fun index entry held => absurd held (none index entry)
    · intro offset index present
      have member := List.mem_of_getElem? present
      rw [List.mem_replicate] at member
      cases member.2
    · exact fun index entry held => absurd held (none index entry)
    · exact fun index entry _ _ held => absurd held (none index entry)
    · rw [chosen, tableCapacity, List.length_replicate]
    · rw [free, tableCapacity, List.count_replicate_self, List.length_replicate]
  · cases created

/-- The map with one more entry. -/
def appended (map : Map α) (key : Str) (value : α) (offset : Nat) : Map α :=
  { map with
    vec := map.vec.set map.vecOffset (some ⟨key, value, offset⟩)
    table := map.table.set offset (.entry map.vecOffset)
    i := map.i + 1
    vecOffset := map.vecOffset + 1 }

theorem addAtTableOffset_eq (room : map.vecOffset < map.vecCapacity)
    (slot : map.table[offset]? = some .null) (value : α) :
    map.addAtTableOffset key value offset = .ok (map.appended key value offset) := by
  rw [addAtTableOffset, if_pos]
  · rfl
  · exact ⟨room, by rw [isInsertable, slot]; rfl⟩

theorem holds_appended (room : map.vecOffset < map.vecCapacity) :
    (map.appended key value offset).Holds index entry ↔
      map.Holds index entry ∨ index = map.vecOffset ∧ entry = ⟨key, value, offset⟩ := by
  have found : (map.appended key value offset).entryAt index =
      if index = map.vecOffset then some ⟨key, value, offset⟩ else map.entryAt index := by
    rw [entryAt, entryAt, appended, List.getElem?_set]
    by_cases here : map.vecOffset = index
    · have bound : map.vecOffset < map.vec.length := room
      rw [if_pos here, if_pos bound, if_pos here.symm]
      rfl
    · rw [if_neg here, if_neg (Ne.symm here)]
  unfold Holds
  rw [found]
  change index < map.vecOffset + 1 ∧ _ ↔ _
  by_cases here : index = map.vecOffset
  · subst here
    simp [eq_comm]
  · rw [if_neg here]
    constructor
    · rintro ⟨bound, present⟩
      exact .inl ⟨by omega, present⟩
    · rintro (⟨bound, present⟩ | ⟨same, -⟩)
      · exact ⟨by omega, present⟩
      · exact absurd same here

theorem entries_appended (room : map.vecOffset < map.vecCapacity) :
    (map.appended key value offset).entries = map.entries ++ [⟨key, value, offset⟩] := by
  rw [entries, entries, appended]
  change List.filterMap id (List.take (map.vecOffset + 1) (map.vec.set _ _)) = _
  have last : (map.vec.set map.vecOffset (some ⟨key, value, offset⟩))[map.vecOffset]? =
      some (some ⟨key, value, offset⟩) := by
    rw [List.getElem?_set_self room]
  rw [List.take_add_one, last, List.take_set_of_le (Nat.le_refl _), List.filterMap_append]
  rfl

theorem Valid.appended (valid : Valid hash map) (room : map.vecOffset < map.vecCapacity)
    (absent : Absent hash map key) (slot : map.table[offset]? = some .null)
    (reached : Probe.Reached (· = MapSlot.null) map.table (map.startOf hash key) offset)
    (value : α) : Valid hash (map.appended key value offset) := by
  have inTable := (List.getElem?_eq_some_iff.mp slot).1
  have capacity : (map.appended key value offset).tableCapacity = map.tableCapacity :=
    List.length_set
  have startSame : ∀ other, (map.appended key value offset).startOf hash other =
      map.startOf hash other := by
    intro other
    rw [startOf, startOf, capacity]
  have elsewhere : ∀ other, other ≠ offset →
      (map.appended key value offset).table[other]? = map.table[other]? := by
    intro other different
    exact List.getElem?_set_ne (Ne.symm different)
  have notHere : ∀ index entry, map.Holds index entry → entry.tableOffset ≠ offset := by
    intro index entry held same
    have pointed := valid.pointed index entry held
    rw [same, slot] at pointed
    cases pointed
  refine ⟨?_, ?_, ?_, ?_, ?_, ?_⟩
  · rw [vecCapacity, Map.appended, List.length_set]
    exact room
  · rw [entries_appended room, List.length_append, ← valid.counted]
    rfl
  · intro index entry held
    rcases (holds_appended room).mp held with old | ⟨rfl, rfl⟩
    · rw [elsewhere _ (notHere index entry old)]
      exact valid.pointed index entry old
    · exact List.getElem?_set_self inTable
  · intro position index present
    by_cases here : position = offset
    · subst here
      rw [Map.appended, List.getElem?_set_self inTable] at present
      cases present
      exact ⟨_, (holds_appended room).mpr (.inr ⟨rfl, rfl⟩), rfl⟩
    · rw [elsewhere position here] at present
      obtain ⟨entry, held, same⟩ := valid.live position index present
      exact ⟨entry, (holds_appended room).mpr (.inl held), same⟩
  · intro index entry held
    rw [startSame]
    have isEntry : ¬MapSlot.entry map.vecOffset = .null := by simp
    rcases (holds_appended room).mp held with old | ⟨rfl, rfl⟩
    · exact (valid.reached index entry old).set isEntry offset
    · exact reached.set isEntry offset
  · intro index entry other otherEntry held otherHeld same
    rcases (holds_appended room).mp held with old | ⟨rfl, rfl⟩
    · rcases (holds_appended room).mp otherHeld with otherOld | ⟨rfl, rfl⟩
      · exact valid.distinct _ _ _ _ old otherOld same
      · rw [absent index entry old] at same
        cases same
    · rcases (holds_appended room).mp otherHeld with otherOld | ⟨rfl, rfl⟩
      · have present := stringEq_symm same
        rw [absent other otherEntry otherOld] at present
        cases present
      · rfl

theorem free_appended (key : Str) (value : α) (slot : map.table[offset]? = some .null) :
    (map.appended key value offset).free + 1 = map.free := by
  obtain ⟨bound, present⟩ := List.getElem?_eq_some_iff.mp slot
  have positive : 0 < map.table.count .null :=
    List.count_pos_iff.mpr (List.mem_of_getElem? slot)
  rw [free, free, appended, List.count_set bound]
  simp [present]
  omega

/-- The map without the entry at a place. -/
def removed (map : Map α) (offset index : Nat) : Map α :=
  { map with
    table := map.table.set offset .tombstone
    vec := map.vec.set index none
    i := map.i - 1 }

theorem holds_removed :
    (map.removed offset index).Holds other found ↔ map.Holds other found ∧ other ≠ index := by
  unfold Holds
  rw [entryAt, entryAt, removed, List.getElem?_set]
  change other < map.vecOffset ∧ _ ↔ _
  by_cases here : index = other
  · subst here
    rw [if_pos rfl]
    split <;> simp
  · rw [if_neg here]
    simp [Ne.symm here]

theorem filterMap_set_none (list : List (Option β)) (present : list[index]? = some (some value)) :
    ((list.set index none).filterMap id).length + 1 = (list.filterMap id).length := by
  induction list generalizing index with
  | nil => cases present
  | cons head tail ih =>
    cases index with
    | zero =>
      cases present
      rfl
    | succ index =>
      have smaller := ih present
      cases head with
      | none => exact smaller
      | some head =>
        rw [List.set_cons_succ, List.filterMap_cons, List.filterMap_cons]
        exact congrArg (· + 1) smaller

theorem Holds.slot (held : map.Holds index entry) :
    (map.vec.take map.vecOffset)[index]? = some (some entry) := by
  rw [List.getElem?_take, if_pos held.1]
  exact Option.join_eq_some_iff.mp held.2

theorem entries_removed :
    (map.removed offset index).entries =
      ((map.vec.take map.vecOffset).set index none).filterMap id := by
  rw [entries, removed]
  change List.filterMap id (List.take map.vecOffset (map.vec.set index none)) = _
  rw [List.take_set]

theorem Valid.removed (valid : Valid hash map) (held : map.Holds index entry) :
    Valid hash (map.removed entry.tableOffset index) := by
  have capacity : (map.removed entry.tableOffset index).tableCapacity = map.tableCapacity :=
    List.length_set
  have elsewhere : ∀ other found, map.Holds other found → other ≠ index →
      found.tableOffset ≠ entry.tableOffset := by
    intro other found otherHeld different same
    have pointed := valid.pointed other found otherHeld
    rw [same, valid.pointed index entry held] at pointed
    cases pointed
    exact different rfl
  refine ⟨?_, ?_, ?_, ?_, ?_, ?_⟩
  · rw [vecCapacity, Map.removed, List.length_set]
    exact valid.inside
  · have length := filterMap_set_none _ held.slot
    rw [entries_removed]
    change map.i - 1 = _
    rw [valid.counted, entries]
    omega
  · intro other found otherHeld
    obtain ⟨old, different⟩ := holds_removed.mp otherHeld
    rw [Map.removed]
    rw [List.getElem?_set_ne (Ne.symm (elsewhere other found old different))]
    exact valid.pointed other found old
  · intro position other present
    by_cases here : entry.tableOffset = position
    · rw [Map.removed, List.getElem?_set, if_pos here] at present
      split at present <;> cases present
    · rw [Map.removed, List.getElem?_set_ne here] at present
      obtain ⟨found, old, same⟩ := valid.live position other present
      refine ⟨found, holds_removed.mpr ⟨old, ?_⟩, same⟩
      rintro rfl
      rw [holds_unique held old] at here
      exact here same
  · intro other found otherHeld
    rw [startOf, capacity]
    have isTombstone : ¬MapSlot.tombstone = .null := by simp
    exact (valid.reached other found (holds_removed.mp otherHeld).1).set
      isTombstone entry.tableOffset
  · intro left leftEntry right rightEntry leftHeld rightHeld same
    exact valid.distinct _ _ _ _ (holds_removed.mp leftHeld).1
      (holds_removed.mp rightHeld).1 same

end Map

end HandlebarsC
