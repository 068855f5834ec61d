import HandlebarsC.Map.Rehash

/-!
What the operations do to a map that was never compacted and is not being iterated: its
free slots and the places it has used up make up the table.
-/

namespace HandlebarsC

namespace Map

variable {α : Type} {hash : StringHash} {map : Map α} {key : Str}

theorem map_unchanged {change : β → β} {test : β → Bool} (row : List β)
    (none : ∀ value ∈ row, test value = false) :
    (row.map fun value => if test value then change value else value) = row := by
  refine (List.map_congr_left fun value member => ?_).trans (List.map_id row)
  rw [none value member]
  rfl

/-- Changing one place of a row with holes, from the values that are left of it. -/
theorem filterMap_modify {change : β → β} {test : β → Bool} (list : List (Option β))
    (chosen : ∀ place value, list[place]? = some (some value) →
      (test value = true ↔ place = index)) :
    (list.modify index (Option.map change)).filterMap id =
      (list.filterMap id).map fun value => if test value then change value else value := by
  induction list generalizing index with
  | nil =>
    rw [List.modify_nil]
    rfl
  | cons head tail ih =>
    cases index with
    | zero =>
      have others : ∀ value ∈ tail.filterMap id, test value = false := by
        intro value member
        obtain ⟨slot, inside, present⟩ := List.mem_filterMap.mp member
        obtain ⟨place, found⟩ := List.mem_iff_getElem?.mp inside
        rw [id_eq] at present
        subst present
        by_contra same
        exact absurd ((chosen (place + 1) value found).mp (by simpa using same)) (by omega)
      rw [List.modify_zero_cons]
      cases head with
      | none => exact (map_unchanged _ others).symm
      | some head =>
        have here := (chosen 0 head rfl).mpr rfl
        rw [Option.map_some, filterMap_id_some, filterMap_id_some, List.map_cons, if_pos here,
          map_unchanged _ others]
    | succ index =>
      have rest := ih fun place value found => by
        rw [chosen (place + 1) value found]
        exact Nat.add_right_cancel_iff
      rw [List.modify_succ_cons]
      cases head with
      | none => exact rest
      | some head =>
        have notHere : ¬test head = true := fun same =>
          absurd ((chosen 0 head rfl).mp same) (Nat.succ_ne_zero index).symm
        rw [filterMap_id_some, filterMap_id_some, List.map_cons, if_neg notHere, rest]

/-- Emptying one place of a row with holes, from the values that are left of it. -/
theorem filterMap_set {test : β → Bool} (list : List (Option β))
    (chosen : ∀ place value, list[place]? = some (some value) →
      (test value = true ↔ place = index)) :
    (list.set index none).filterMap id = (list.filterMap id).filter fun value => !test value := by
  induction list generalizing index with
  | nil => rfl
  | cons head tail ih =>
    cases index with
    | zero =>
      have others : (tail.filterMap id).filter (fun value => !test value) =
          tail.filterMap id := by
        rw [List.filter_eq_self]
        intro value member
        obtain ⟨slot, inside, present⟩ := List.mem_filterMap.mp member
        obtain ⟨place, found⟩ := List.mem_iff_getElem?.mp inside
        rw [id_eq] at present
        subst present
        by_contra same
        exact absurd ((chosen (place + 1) value found).mp (by simpa using same)) (by omega)
      rw [List.set_cons_zero, List.filterMap_cons_none rfl]
      cases head with
      | none => exact others.symm
      | some head =>
        have here := (chosen 0 head rfl).mpr rfl
        rw [filterMap_id_some, List.filter_cons_of_neg, others]
        rw [here]
        exact Bool.false_ne_true
    | succ index =>
      have rest := ih fun place value found => by
        rw [chosen (place + 1) value found]
        exact Nat.add_right_cancel_iff
      rw [List.set_cons_succ]
      cases head with
      | none => exact rest
      | some head =>
        have notHere : test head = false := Bool.eq_false_iff.mpr fun same =>
          absurd ((chosen 0 head rfl).mp same) (Nat.succ_ne_zero index).symm
        rw [filterMap_id_some, filterMap_id_some, List.filter_cons_of_pos, rest]
        rw [notHere]
        rfl

/-- The invariant of a map that was never compacted and is not being iterated. -/
structure Intact (hash : StringHash) (map : Map α) : Prop where
  valid : Valid hash map
  sized : Sized map
  isInIteration : map.isInIteration = false
  used : map.free + map.vecOffset = map.tableCapacity

theorem Intact.ctor (hash : StringHash) (small : capacity ≤ maxCapacity) :
    ∃ map : Map α, Map.ctor capacity = .ok map ∧ Intact hash map ∧ map.pairs = [] := by
  obtain ⟨slots, chosen⟩ := chooseTableCapacity_some small
  obtain ⟨map, created⟩ : ∃ map : Map α, Map.ctor capacity = .ok map := by
    rw [Map.ctor, chosen]
    exact ⟨_, rfl⟩
  obtain ⟨valid, entries, offset, vec, inIteration, -, table, free⟩ :=
    Valid.ctor hash created
  refine ⟨map, created, ⟨valid, ?_, inIteration, ?_⟩, ?_⟩
  · rw [Sized, vec]
    exact table
  · rw [offset, free]
    rfl
  · rw [pairs, entries]
    rfl

/-- A map with room in its vector has a free slot. -/
theorem Intact.free_pos (intact : Intact hash map) (room : map.vecOffset < map.vecCapacity) :
    0 < map.free := by
  have used := intact.used
  have table := intact.sized.capacity_lt
  omega

theorem Fresh.intact (fresh : Fresh hash before after) : Intact hash after :=
  ⟨fresh.valid, fresh.sized, fresh.isInIteration, fresh.free⟩

/-- Rehashing keeps keys, values and order, and makes room for one more. -/
theorem Intact.rehash (intact : Intact hash map) (small : map.i ≤ maxCount) (force : Bool) :
    ∃ after, Map.rehash hash map force = .ok after ∧ Intact hash after ∧
      after.pairs = map.pairs ∧ after.vecOffset < after.vecCapacity ∧
      ((map.isSparse = true → force = true) → after.isSparse = false) := by
  rcases rehash_spec intact.valid intact.sized small force with
    ⟨same, iterating | ⟨notForced, calm⟩⟩ | ⟨after, result, fresh, -⟩
  · rw [intact.isInIteration] at iterating
    cases iterating
  · refine ⟨map, same, intact, rfl, calm.room, fun wanted => ?_⟩
    rw [Bool.eq_false_iff]
    intro sparse
    rw [wanted sparse] at notForced
    cases notForced
  · exact ⟨after, result, fresh.intact, fresh.pairs, fresh.room,
      fun _ => isSparse_eq_false.mpr fresh.dense.symm⟩

theorem absent_congr (same : left.pairs = right.pairs) (absent : Absent hash left key) :
    Absent hash right key := by
  rw [absent_iff_pairs, ← same]
  exact absent_iff_pairs.mp absent

theorem add_eq (rehashed : Map.rehash hash map false = .ok ready)
    (found : findEntry hash ready key = .ok ret) (noEntry : ret.entry = none)
    (emptyFound : ret.emptyFound = true) (value : α) :
    map.add hash key value = ready.addAtTableOffset key value ret.emptyOffset := by
  rw [add, addAfter, rehashed]
  change (findEntry hash ready key >>= _) = _
  rw [found]
  change (if ret.entry.isSome || !ret.emptyFound then _ else _) = _
  rw [noEntry, emptyFound]
  rfl

theorem update_eq (rehashed : Map.rehash hash map false = .ok ready)
    (found : findEntry hash ready key = .ok ret) (noEntry : ret.entry = none)
    (emptyFound : ret.emptyFound = true) (value : α) :
    map.update hash key value = ready.addAtTableOffset key value ret.emptyOffset := by
  rw [update, rehashed]
  change (findEntry hash ready key).bind _ = _
  rw [found, Except.bind, noEntry, emptyFound]
  rfl

theorem add_found (rehashed : Map.rehash hash map false = .ok ready)
    (found : findEntry hash ready key = .ok ret) (place : ret.entry = some there) (value : α) :
    map.add hash key value =
      .error (.threw ⟨.error, bytes "Failed to add to hash table", LocInfo.zero⟩) := by
  rw [add, addAfter, rehashed]
  change (findEntry hash ready key >>= _) = _
  rw [found]
  change (if ret.entry.isSome || !ret.emptyFound then _ else _) = _
  rw [place]
  rfl

/-- A new key goes to the end of a map with room for it. -/
theorem Intact.insert (intact : Intact hash map) (room : map.vecOffset < map.vecCapacity)
    (absent : Absent hash map key) (value : α) :
    ∃ ret after, findEntry hash map key = .ok ret ∧ ret.entry = none ∧ ret.emptyFound = true ∧
      map.addAtTableOffset key value ret.emptyOffset = .ok after ∧ Intact hash after ∧
      after.pairs = map.pairs ++ [(key, value)] := by
  obtain ⟨ret, found, noEntry, search⟩ := intact.valid.findEntry_absent absent
  obtain ⟨emptyFound, slot, reached⟩ := search (Map.free_pos (intact.free_pos room))
  have valid := intact.valid.appended room absent slot reached value
  have vec : (map.appended key value ret.emptyOffset).vecCapacity = map.vecCapacity :=
    List.length_set
  have table : (map.appended key value ret.emptyOffset).tableCapacity = map.tableCapacity :=
    List.length_set
  refine ⟨ret, _, found, noEntry, emptyFound, addAtTableOffset_eq room slot value,
    ⟨valid, ?_, intact.isInIteration, ?_⟩, pairs_appended room⟩
  · rw [Sized, vec, table]
    exact intact.sized
  · have free := free_appended key value slot
    rw [table, ← intact.used, ← free]
    change _ + (map.vecOffset + 1) = _
    omega

theorem Intact.add_absent (intact : Intact hash map) (small : map.i ≤ maxCount)
    (absent : Absent hash map key) (value : α) :
    ∃ after, map.add hash key value = .ok after ∧ Intact hash after ∧
      after.pairs = map.pairs ++ [(key, value)] := by
  obtain ⟨fresh, rehashed, intactFresh, same, room, -⟩ := intact.rehash small false
  obtain ⟨ret, after, found, noEntry, emptyFound, added, intactAfter, pairs⟩ :=
    intactFresh.insert room (absent_congr same.symm absent) value
  exact ⟨after, (add_eq rehashed found noEntry emptyFound value).trans added, intactAfter,
    by rw [pairs, same]⟩

theorem Intact.add_present (intact : Intact hash map) (small : map.i ≤ maxCount)
    (present : ¬Absent hash map key) (value : α) :
    map.add hash key value =
      .error (.threw ⟨.error, bytes "Failed to add to hash table", LocInfo.zero⟩) := by
  obtain ⟨fresh, rehashed, intactFresh, same, -, -⟩ := intact.rehash small false
  obtain ⟨index, entry, held, equal⟩ := not_absent (mt (absent_congr same) present)
  obtain ⟨ret, found, place⟩ := intactFresh.valid.findEntry_present held equal
  exact add_found rehashed found place value

/-- The map with another value at a place. -/
def assigned (map : Map α) (index : Nat) (value : α) : Map α :=
  { map with vec := map.vec.modify index (Option.map fun entry => { entry with value := value }) }

theorem holds_assigned {value : α} :
    (map.assigned index value).Holds other found ↔ ∃ entry, map.Holds other entry ∧
      found = if other = index then { entry with value := value } else entry := by
  unfold Holds
  have slot : (map.assigned index value).entryAt other = (map.entryAt other).map fun entry =>
      if other = index then { entry with value := value } else entry := by
    rw [entryAt, entryAt, assigned, List.getElem?_modify]
    by_cases here : index = other
    · simp only [if_pos here, if_pos here.symm]
      rcases map.vec[other]? with _ | _ | entry <;> rfl
    · simp only [if_neg here, if_neg (Ne.symm here)]
      rcases map.vec[other]? with _ | _ | entry <;> rfl
  rw [slot, Option.map_eq_some_iff]
  constructor
  · rintro ⟨bound, entry, present, rfl⟩
    exact ⟨entry, ⟨bound, present⟩, rfl⟩
  · rintro ⟨entry, ⟨bound, present⟩, rfl⟩
    exact ⟨bound, entry, present, rfl⟩

/-- The place of a key, seen from the entries. -/
theorem Valid.chosen (valid : Valid hash map) (held : map.Holds index entry)
    (same : stringEq hash entry.key key = true) (place : Nat) (other : MapEntry α)
    (present : (map.vec.take map.vecOffset)[place]? = some (some other)) :
    stringEq hash other.key key = true ↔ place = index := by
  rw [List.getElem?_take] at present
  split at present
  · rename_i bound
    have otherHeld : map.Holds place other := by
      refine ⟨bound, ?_⟩
      rw [entryAt, present]
      rfl
    constructor
    · intro equal
      exact valid.distinct _ _ _ _ otherHeld held (stringEq_trans equal (stringEq_symm same))
    · rintro rfl
      rw [holds_unique otherHeld held]
      exact same
  · cases present

theorem Valid.entries_assigned (valid : Valid hash map) (held : map.Holds index entry)
    (same : stringEq hash entry.key key = true) (value : α) :
    (map.assigned index value).entries = map.entries.map fun entry =>
      if stringEq hash entry.key key then { entry with value := value } else entry := by
  rw [entries, entries, assigned]
  change List.filterMap id (List.take map.vecOffset (map.vec.modify _ _)) = _
  rw [List.take_modify]
  exact filterMap_modify _ (valid.chosen held same)

theorem Valid.assigned (valid : Valid hash map) (held : map.Holds index entry) (value : α) :
    Valid hash (map.assigned index value) := by
  have fields : ∀ other found, (map.assigned index value).Holds other found →
      ∃ old, map.Holds other old ∧ found.key = old.key ∧ found.tableOffset = old.tableOffset := by
    intro other found otherHeld
    obtain ⟨old, oldHeld, rfl⟩ := holds_assigned.mp otherHeld
    refine ⟨old, oldHeld, ?_, ?_⟩
    · split <;> rfl
    · split <;> rfl
  refine ⟨?_, ?_, ?_, ?_, ?_, ?_⟩
  · rw [vecCapacity, Map.assigned, List.length_modify]
    exact valid.inside
  · rw [valid.entries_assigned held (stringEq_refl hash entry.key), List.length_map]
    exact valid.counted
  · intro other found otherHeld
    obtain ⟨old, oldHeld, -, offset⟩ := fields other found otherHeld
    rw [offset]
    exact valid.pointed other old oldHeld
  · intro offset other present
    obtain ⟨old, oldHeld, same⟩ := valid.live offset other present
    refine ⟨_, holds_assigned.mpr ⟨old, oldHeld, rfl⟩, ?_⟩
    rw [← same]
    split <;> rfl
  · intro other found otherHeld
    obtain ⟨old, oldHeld, key, offset⟩ := fields other found otherHeld
    rw [key, offset]
    exact valid.reached other old oldHeld
  · intro left leftEntry right rightEntry leftHeld rightHeld same
    obtain ⟨leftOld, leftOldHeld, leftKey, -⟩ := fields left leftEntry leftHeld
    obtain ⟨rightOld, rightOldHeld, rightKey, -⟩ := fields right rightEntry rightHeld
    rw [leftKey, rightKey] at same
    exact valid.distinct _ _ _ _ leftOldHeld rightOldHeld same

theorem update_found (rehashed : Map.rehash hash map false = .ok ready)
    (found : findEntry hash ready key = .ok ret) (place : ret.entry = some (offset, index))
    (value : α) : map.update hash key value = .ok (ready.assigned index value) := by
  rw [update, rehashed]
  change (findEntry hash ready key).bind _ = _
  rw [found, Except.bind, place]
  rfl

/-- Another value for the entry of a key. -/
theorem Intact.assigned (intact : Intact hash map) (held : map.Holds index entry)
    (same : stringEq hash entry.key key = true) (value : α) :
    Intact hash (map.assigned index value) ∧ (map.assigned index value).pairs =
      map.pairs.map fun pair => if stringEq hash pair.1 key then (pair.1, value) else pair := by
  have vec : (map.assigned index value).vecCapacity = map.vecCapacity :=
    List.length_modify _ _ _
  refine ⟨⟨intact.valid.assigned held value, ?_, intact.isInIteration, intact.used⟩, ?_⟩
  · rw [Sized, vec]
    exact intact.sized
  · rw [Map.pairs, Map.pairs, intact.valid.entries_assigned held same, List.map_map, List.map_map]
    refine List.map_congr_left fun entry _ => ?_
    rw [Function.comp_apply, Function.comp_apply]
    split <;> rfl

/-- Updating a key that is there gives its entry the value. -/
theorem Intact.update_present (intact : Intact hash map) (small : map.i ≤ maxCount)
    (present : ¬Absent hash map key) (value : α) :
    ∃ after, map.update hash key value = .ok after ∧ Intact hash after ∧
      after.pairs = map.pairs.map fun pair =>
        if stringEq hash pair.1 key then (pair.1, value) else pair := by
  obtain ⟨fresh, rehashed, intactFresh, pairs, -, -⟩ := intact.rehash small false
  obtain ⟨index, entry, held, same⟩ := not_absent (mt (absent_congr pairs) present)
  obtain ⟨ret, found, place⟩ := intactFresh.valid.findEntry_present held same
  obtain ⟨intactAfter, assigned⟩ := intactFresh.assigned held same value
  exact ⟨fresh.assigned index value, update_found rehashed found place value, intactAfter,
    pairs ▸ assigned⟩

theorem Intact.update_absent (intact : Intact hash map) (small : map.i ≤ maxCount)
    (absent : Absent hash map key) (value : α) :
    ∃ after, map.update hash key value = .ok after ∧ Intact hash after ∧
      after.pairs = map.pairs ++ [(key, value)] := by
  obtain ⟨fresh, rehashed, intactFresh, same, room, -⟩ := intact.rehash small false
  obtain ⟨ret, after, found, noEntry, emptyFound, added, intactAfter, pairs⟩ :=
    intactFresh.insert room (absent_congr same.symm absent) value
  exact ⟨after, (update_eq rehashed found noEntry emptyFound value).trans added, intactAfter,
    by rw [pairs, same]⟩

theorem remove_absent
    (rehashed : Map.rehash hash map (map.loadFactor < minLoadFactor) = .ok ready)
    (found : findEntry hash ready key = .ok ret) (noEntry : ret.entry = none) :
    map.remove hash key = .ok ready := by
  rw [remove, rehashed]
  change (findEntry hash ready key).bind _ = _
  rw [found, Except.bind, noEntry]

theorem remove_found
    (rehashed : Map.rehash hash map (map.loadFactor < minLoadFactor) = .ok ready)
    (found : findEntry hash ready key = .ok ret) (place : ret.entry = some (offset, index)) :
    map.remove hash key = .ok (ready.removed offset index) := by
  rw [remove, rehashed]
  change (findEntry hash ready key).bind _ = _
  rw [found, Except.bind, place]
  rfl

theorem free_removed (pointed : map.table[offset]? = some (.entry place)) :
    (map.removed offset index).free = map.free := by
  obtain ⟨bound, slot⟩ := List.getElem?_eq_some_iff.mp pointed
  rw [free, free, removed, List.count_set bound, slot]
  rfl

/-- Taking out a key leaves the other pairs in their order. -/
theorem Intact.remove (intact : Intact hash map) (small : map.i ≤ maxCount) (key : Str) :
    ∃ after, map.remove hash key = .ok after ∧ Intact hash after ∧
      after.pairs = map.pairs.filter fun pair => !stringEq hash pair.1 key := by
  obtain ⟨fresh, rehashed, intactFresh, pairs, -, -⟩ :=
    intact.rehash small (map.loadFactor < minLoadFactor)
  rw [← pairs]
  by_cases absent : Absent hash fresh key
  · obtain ⟨ret, found, noEntry, -⟩ := intactFresh.valid.findEntry_absent absent
    refine ⟨fresh, ?_, intactFresh, ?_⟩
    · exact remove_absent rehashed found noEntry
    · symm
      rw [List.filter_eq_self]
      intro pair member
      rw [absent_iff_pairs.mp absent pair member]
      rfl
  · obtain ⟨index, entry, held, same⟩ := not_absent absent
    obtain ⟨ret, found, place⟩ := intactFresh.valid.findEntry_present held same
    have vec : (fresh.removed entry.tableOffset index).vecCapacity = fresh.vecCapacity :=
      List.length_set
    have table : (fresh.removed entry.tableOffset index).tableCapacity = fresh.tableCapacity :=
      List.length_set
    have pointed := intactFresh.valid.pointed index entry held
    refine ⟨fresh.removed entry.tableOffset index, ?_,
      ⟨intactFresh.valid.removed held, ?_, intactFresh.isInIteration, ?_⟩, ?_⟩
    · exact remove_found rehashed found place
    · rw [Sized, vec, table]
      exact intactFresh.sized
    · rw [free_removed pointed, table]
      exact intactFresh.used
    · rw [Map.pairs, Map.pairs, entries_removed, entries,
        filterMap_set _ (intactFresh.valid.chosen held same), List.filter_map]
      rfl

theorem count_null_set {table : List MapSlot} (taken : table[offset]? = some slot)
    (notNull : slot ≠ .null) (index : Nat) :
    (table.set offset (.entry index)).count .null = table.count .null := by
  obtain ⟨bound, present⟩ := List.getElem?_eq_some_iff.mp taken
  rw [List.count_set bound, present]
  simp [notNull]

/-- Pointing taken slots elsewhere frees none. -/
theorem count_null_pointFrom {table : List MapSlot} (row : List (MapEntry α)) (start : Nat)
    (taken : ∀ entry ∈ row, ∃ index, table[entry.tableOffset]? = some (.entry index)) :
    (pointFrom table start row).count .null = table.count .null := by
  induction row generalizing table start with
  | nil => rfl
  | cons entry rest ih =>
    obtain ⟨index, here⟩ := taken entry List.mem_cons_self
    rw [pointFrom, ih, count_null_set here (by simp)]
    intro later member
    by_cases same : entry.tableOffset = later.tableOffset
    · refine ⟨start, ?_⟩
      rw [← same]
      exact List.getElem?_set_self (List.getElem?_eq_some_iff.mp here).1
    · rw [List.getElem?_set_ne same]
      exact taken later (List.mem_cons_of_mem _ member)

theorem rebuildReferences_go (row : List (MapEntry α)) (table : List MapSlot) (start : Nat) :
    rebuildReferences.go table start (row.map some) = pointFrom table start row := by
  induction row generalizing table start with
  | nil => rfl
  | cons entry rest ih => exact ih (table.set entry.tableOffset (.entry start)) (start + 1)

theorem Rearranged.free_eq (rearranged : Rearranged map after first row)
    (valid : Valid hash map) : after.free = map.free := by
  rw [free, rearranged.table]
  refine count_null_pointFrom row first fun entry member => ?_
  obtain ⟨index, held⟩ := mem_entries.mp (rearranged.perm.mem_iff.mp member)
  exact ⟨index, valid.pointed index entry held⟩

/-- Rearranging keeps the invariant. -/
theorem Intact.rearranged (intact : Intact hash map) (rearranged : Rearranged map after 0 row)
    (dense : map.isSparse = false) (inIteration : after.isInIteration = map.isInIteration)
    (vec : after.vecCapacity = map.vecCapacity) : Intact hash after := by
  refine ⟨rearranged.valid intact.valid, ?_, inIteration.trans intact.isInIteration, ?_⟩
  · rw [Sized, vec, rearranged.tableCapacity]
    exact intact.sized
  · rw [rearranged.free_eq intact.valid, rearranged.tableCapacity, rearranged.vecOffset, rearranged.perm.length_eq,
      ← intact.valid.counted, isSparse_eq_false.mp dense, Nat.zero_add]
    exact intact.used

/-- The comparison of entries that sorting makes of a comparison of keys and values. -/
def order (compare : Str × α → Str × α → Int) (left right : MapEntry α) : Int :=
  compare (left.key, left.value) (right.key, right.value)

/-- Sorting a map that has no holes after the rehash. -/
theorem sortBy_dense (rehashed : Map.rehash hash map map.isSparse = .ok fresh)
    (valid : Valid hash fresh) (dense : fresh.isSparse = false)
    (permutes : ∀ order row, (sortR order row).Perm row)
    (compare : Str × α → Str × α → Int) :
    ∃ after, map.sortBy hash sortR compare = .ok after ∧
      Rearranged fresh after 0 (sortR (order compare) fresh.entries) ∧
      after.isInIteration = fresh.isInIteration ∧ after.vecCapacity = fresh.vecCapacity := by
  have full := isSparse_eq_false.mp dense
  have inside : fresh.vecOffset ≤ fresh.vec.length := valid.inside
  have all := valid.dense full
  have length : (sortR (order compare) fresh.entries).length = fresh.vecOffset := by
    rw [(permutes _ _).length_eq, ← valid.counted, full]
  have front : ((sortR (order compare) fresh.entries).map some ++
      fresh.vec.drop fresh.vecOffset).take (sortR (order compare) fresh.entries).length =
      (sortR (order compare) fresh.entries).map some :=
    List.take_left' (List.length_map _)
  refine ⟨{ fresh with
      vec := (sortR (order compare) fresh.entries).map some ++ fresh.vec.drop fresh.vecOffset
      table := pointFrom fresh.table 0 (sortR (order compare) fresh.entries) }, ?_,
    ⟨permutes _ _, ?_, ?_, rfl, rfl⟩, rfl, ?_⟩
  · rw [Map.sortBy, rehashed]
    change (if (fresh.vec.take fresh.i).all Option.isSome then
      rebuildReferences { fresh with
        vec := (sortR (order compare) ((fresh.vec.take fresh.i).filterMap id)).map some ++
          fresh.vec.drop fresh.i } else _) = _
    have segment : fresh.vec.take fresh.i = fresh.vec.take fresh.vecOffset := by rw [full]
    have behind : fresh.vec.drop fresh.i = fresh.vec.drop fresh.vecOffset := by rw [full]
    rw [segment, behind, if_pos (List.all_eq_true.mpr all), rebuildReferences, if_pos full.symm]
    have rebuilt := rebuildReferences_go (sortR (order compare) fresh.entries) fresh.table 0
    rw [← front, length] at rebuilt
    exact congrArg (fun table => Except.ok { fresh with
      vec := (sortR (order compare) fresh.entries).map some ++ fresh.vec.drop fresh.vecOffset
      table := table }) rebuilt
  · rw [Nat.zero_add]
    exact front
  · rw [Nat.zero_add]
    exact length.symm
  · rw [vecCapacity, vecCapacity, List.length_append, List.length_map, length, List.length_drop]
    omega

/-- Sorting leaves what `sort_r` makes of the entries. -/
theorem Intact.sortBy (intact : Intact hash map) (small : map.i ≤ maxCount)
    (permutes : ∀ order row, (sortR order row).Perm row)
    (compare : Str × α → Str × α → Int) :
    ∃ after row, map.sortBy hash sortR compare = .ok after ∧ Intact hash after ∧
      row.map (fun entry : MapEntry α => (entry.key, entry.value)) = map.pairs ∧
      after.entries = sortR (order compare) row := by
  obtain ⟨fresh, rehashed, intactFresh, pairs, -, dense⟩ := intact.rehash small map.isSparse
  obtain ⟨after, sorted, rearranged, inIteration, vec⟩ :=
    sortBy_dense rehashed intactFresh.valid (dense id) permutes compare
  exact ⟨after, fresh.entries, sorted,
    intactFresh.rearranged rearranged (dense id) inIteration vec, pairs, rearranged.entries⟩

theorem Intact.copyCtor (intact : Intact hash map) (wanted : capacity ≤ maxCapacity) :
    ∃ after, map.copyCtor hash capacity = .ok after ∧ Intact hash after ∧
      after.pairs = map.pairs := by
  obtain ⟨after, copied, valid, sized, pairs, inIteration, -, -, -, -, used⟩ :=
    copyCtorWith_spec (Map.rehash hash) (fun _ calm => rehashWithin_calm 1 calm)
      intact.valid intact.sized wanted
  exact ⟨after, copied, ⟨valid, sized, inIteration, used⟩, pairs⟩

end Map

end HandlebarsC
