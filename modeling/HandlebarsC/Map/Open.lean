import HandlebarsC.Map.Correct

/-!
Maps that are compacted and iterated as well: under which conditions there is always
room for one more key.
-/

namespace HandlebarsC

namespace Map

variable {α β : Type} {hash : StringHash} {sortR : SortR α} {map after : Map α} {key : Str}
  {compare : Str × α → Str × α → Int}

/-- A call, a compaction, or the start or a step of a value iteration. -/
inductive Event (α β : Type) where
  | op (op : Op α β)
  | sparseArrayCompact
  | iteratorInit
  | iteratorNext (index : Nat)

def Event.apply (hash : StringHash) (sortR : SortR α) (map : Map α) :
    Event α β → MapResult (Map α)
  | .op call => call.apply hash sortR map
  | .sparseArrayCompact => .ok map.sparseArrayCompact
  | .iteratorInit => map.iteratorInit.map Prod.snd
  | .iteratorNext index => (map.iteratorNext index).map Prod.snd

def Event.Allowed (map : Map α) : Event α β → Prop
  | .op call => call.Allowed Set.univ map
  | _ => True

/-- An iteration is started on the compacted map. -/
def Event.leaves (map : Map α) : Event α β → Option (Map α)
  | .op call => call.leaves map
  | .iteratorInit => some map.sparseArrayCompact
  | .sparseArrayCompact | .iteratorNext _ => some map

/-- As `Step`, with every key. -/
inductive EventStep (hash : StringHash) (sortR : SortR α) :
    Option (Map α) → Event α β → Option (Map α) → Prop where
  | returned {map after : Map α} {event : Event α β} (allowed : event.Allowed map)
      (success : event.apply hash sortR map = .ok after) :
      EventStep hash sortR (some map) event (some after)
  | threw {map : Map α} {event : Event α β} {error : Error} (allowed : event.Allowed map)
      (failure : event.apply hash sortR map = .error (.threw error)) :
      EventStep hash sortR (some map) event (event.leaves map)

/-- Where compaction ends: one place too far if the first place is a hole. -/
def packedOffset (map : Map α) : Nat :=
  if (map.entryAt 0).isSome then map.count else map.count + 1

/-- Compaction keeps every entry, and does not open a full vector over a table without
free slots. -/
def Compacts (map : Map α) : Prop :=
  map.isSparse = true → (map.FirstHole 0 ∨ map.FirstHole 1) ∧
    (0 < map.free ∨ map.packedOffset = map.vecCapacity)

/-- After one more key there is room for another, or the next rehash makes some. -/
def Roomy (map : Map α) : Prop :=
  if map.isInIteration then map.vecOffset + 1 < map.vecCapacity ∧ 2 ≤ map.free
  else map.refcount > 1 ∨ map.vecCapacity ≤ map.vecOffset + 1 ∨ 2 ≤ map.free

/-- The condition under which a call leaves room for one more key. -/
def Event.Harmless (hash : StringHash) (map : Map α) (event : Event α β) : Prop :=
  map.count ≤ maxCount ∧
    match event with
    | .op (.add key _) => (Absent hash map key → map.Roomy) ∧ (¬Absent hash map key → map.Lasting)
    | .op (.update key _) => Absent hash map key → map.Roomy
    | .sparseArrayCompact => map.Compacts
    | .iteratorInit => map.count ≠ 0 → map.Compacts ∧ 0 < map.free ∧
        (if map.isSparse then map.packedOffset else map.count) < map.vecCapacity
    | _ => True

/-- What adding or updating a key that is not there meets, and that it succeeds. -/
structure Accepts (hash : StringHash) (map : Map α) : Prop where
  inside : map.vecOffset ≤ map.vecCapacity
  room : ∃ ready, map.rehash hash false = .ok ready ∧ ready.vecOffset < ready.vecCapacity ∧
    ∀ key, ready.find hash key = .ok none → ∃ ret, findEntry hash ready key = .ok ret ∧
      ret.entry = none ∧ ret.emptyFound = true ∧ ready.isInsertable ret.emptyOffset = true ∧
      Probe.Reached (· = MapSlot.null) ready.table (ready.startOf hash key) ret.emptyOffset
  add : ∀ key value, map.find hash key = .ok none → ∃ after, map.add hash key value = .ok after
  update : ∀ key value, map.find hash key = .ok none →
    ∃ after, map.update hash key value = .ok after

/-- There is room, or the vector is full and the next insertion rehashes. -/
structure Usable (hash : StringHash) (map : Map α) : Prop where
  valid : Valid hash map
  sized : Sized map
  ready : map.isInIteration = false ∧ map.vecOffset = map.vecCapacity ∨
    map.vecOffset < map.vecCapacity ∧ 0 < map.free

theorem Valid.absent_iff_find (valid : Valid hash map) :
    Absent hash map key ↔ map.find hash key = .ok none := by
  rw [valid.find_eq, absent_iff_pairs, Except.ok.injEq, StrMap.find, Option.map_eq_none_iff,
    List.find?_eq_none]
  simp only [Bool.not_eq_true]

theorem Fresh.room_free (fresh : Fresh hash map after) : 0 < after.free := by
  have used := fresh.free
  have room := fresh.room
  have table := fresh.sized.capacity_lt
  omega

/-- After a rehash there is room in the vector and in the table. -/
theorem Usable.rehash (usable : Usable hash map) (small : map.count ≤ maxCount) (force : Bool) :
    ∃ ready, Map.rehash hash map force = .ok ready ∧ Valid hash ready ∧ Sized ready ∧
      ready.pairs = map.pairs ∧ ready.vecOffset < ready.vecCapacity ∧ 0 < ready.free ∧
      (ready = map ∧ (map.isInIteration = true ∨ Calm map) ∨ Fresh hash map ready) := by
  rcases rehash_spec usable.valid usable.sized small force with
    ⟨same, kept⟩ | ⟨fresh, result, isFresh, -⟩
  · have room : map.vecOffset < map.vecCapacity ∧ 0 < map.free := by
      rcases usable.ready with ⟨notIterating, full⟩ | room
      · rcases kept with iterating | ⟨-, calm⟩
        · rw [notIterating] at iterating
          cases iterating
        · exact absurd full (Nat.ne_of_lt calm.room)
      · exact room
    exact ⟨map, same, usable.valid, usable.sized, rfl, room.1, room.2,
      .inl ⟨rfl, kept.imp_right And.right⟩⟩
  · exact ⟨fresh, result, isFresh.valid, isFresh.sized, isFresh.pairs, isFresh.room,
      isFresh.room_free, .inr isFresh⟩

/-- A usable map accepts every key that is not there. -/
theorem Usable.accepts (usable : Usable hash map) (small : map.count ≤ maxCount) :
    Accepts hash map := by
  obtain ⟨ready, rehashed, valid, -, pairs, room, free, -⟩ := usable.rehash small false
  have search : ∀ key, Absent hash ready key → ∃ ret, findEntry hash ready key = .ok ret ∧
      ret.entry = none ∧ ret.emptyFound = true ∧ ready.table[ret.emptyOffset]? = some .null ∧
      Probe.Reached (· = MapSlot.null) ready.table (ready.startOf hash key) ret.emptyOffset := by
    intro key absent
    obtain ⟨ret, found, noEntry, empty⟩ := valid.findEntry_absent absent
    obtain ⟨emptyFound, slot, reached⟩ := empty (free_pos free)
    exact ⟨ret, found, noEntry, emptyFound, slot, reached⟩
  refine ⟨usable.valid.inside, ⟨ready, rehashed, room, ?_⟩, ?_, ?_⟩
  · intro key notFound
    obtain ⟨ret, found, noEntry, emptyFound, slot, reached⟩ :=
      search key (valid.absent_iff_find.mpr notFound)
    refine ⟨ret, found, noEntry, emptyFound, ?_, reached⟩
    rw [isInsertable, slot]
    rfl
  · intro key value notFound
    have absent := absent_congr pairs.symm (usable.valid.absent_iff_find.mpr notFound)
    obtain ⟨ret, found, noEntry, emptyFound, slot, -⟩ := search key absent
    refine ⟨_, (?_ : map.add hash key value = .ok (ready.appended key value ret.emptyOffset))⟩
    rw [add_eq rehashed found noEntry emptyFound]
    exact addAtTableOffset_eq room slot value
  · intro key value notFound
    have absent := absent_congr pairs.symm (usable.valid.absent_iff_find.mpr notFound)
    obtain ⟨ret, found, noEntry, emptyFound, slot, -⟩ := search key absent
    refine ⟨_, (?_ : map.update hash key value = .ok (ready.appended key value ret.emptyOffset))⟩
    rw [update_eq rehashed found noEntry emptyFound]
    exact addAtTableOffset_eq room slot value

/-- A map with room is usable. -/
theorem usable_of_room (valid : Valid hash map) (sized : Sized map)
    (room : map.vecOffset < map.vecCapacity) (free : 0 < map.free) : Usable hash map :=
  ⟨valid, sized, .inr ⟨room, free⟩⟩

/-- So is a map that is not iterated and has used its free slots for its vector only. -/
theorem Intact.usable (intact : Intact hash map) : Usable hash map := by
  refine ⟨intact.valid, intact.sized, ?_⟩
  rcases Nat.lt_or_eq_of_le intact.valid.inside with room | full
  · exact .inr ⟨room, intact.free_pos room⟩
  · exact .inl ⟨intact.isInIteration, full⟩

/-- Where a key goes, there is room for another behind it. -/
theorem Roomy.behind (roomy : map.Roomy) (room : ready.vecOffset < ready.vecCapacity)
    (which : ready = map ∧ (map.isInIteration = true ∨ Calm map) ∨ Fresh hash map ready) :
    ready.isInIteration = false ∧ ready.vecOffset + 1 = ready.vecCapacity ∨
      ready.vecOffset + 1 < ready.vecCapacity ∧ 2 ≤ ready.free := by
  unfold Roomy at roomy
  rcases which with ⟨rfl, iterating | calm⟩ | fresh
  · rw [if_pos iterating] at roomy
    exact .inr roomy
  · rw [if_neg (by rw [calm.isInIteration]; exact Bool.false_ne_true)] at roomy
    have alone := calm.refcount
    rcases Nat.lt_or_eq_of_le (Nat.succ_le_of_lt room) with more | last
    · right
      refine ⟨more, ?_⟩
      omega
    · exact .inl ⟨calm.isInIteration, last⟩
  · have used := fresh.free
    have table := fresh.sized.capacity_lt
    rcases Nat.lt_or_eq_of_le (Nat.succ_le_of_lt room) with more | last
    · exact .inr ⟨more, by omega⟩
    · exact .inl ⟨fresh.isInIteration, last⟩

theorem Usable.appended (valid : Valid hash map) (sized : Sized map)
    (room : map.vecOffset < map.vecCapacity) (absent : Absent hash map key)
    (slot : map.table[offset]? = some .null)
    (reached : Probe.Reached (· = MapSlot.null) map.table (map.startOf hash key) offset)
    (behind : map.isInIteration = false ∧ map.vecOffset + 1 = map.vecCapacity ∨
      map.vecOffset + 1 < map.vecCapacity ∧ 2 ≤ map.free) (value : α) :
    Usable hash (map.appended key value offset) := by
  have vec : (map.appended key value offset).vecCapacity = map.vecCapacity := List.length_set
  have table : (map.appended key value offset).tableCapacity = map.tableCapacity :=
    List.length_set
  have free := free_appended key value slot
  refine ⟨valid.appended room absent slot reached value, ?_, ?_⟩
  · rw [Sized, vec, table]
    exact sized
  · rw [vec]
    refine behind.imp_right (And.imp_right fun two => ?_)
    omega

theorem Usable.add (usable : Usable hash map) (small : map.count ≤ maxCount)
    (roomy : Absent hash map key → map.Roomy) (success : map.add hash key value = .ok after) :
    Usable hash after := by
  obtain ⟨ready, rehashed, valid, sized, pairs, room, free, which⟩ := usable.rehash small false
  by_cases absent : Absent hash ready key
  · obtain ⟨ret, found, noEntry, empty⟩ := valid.findEntry_absent absent
    obtain ⟨emptyFound, slot, reached⟩ := empty (free_pos free)
    rw [add_eq rehashed found noEntry emptyFound, addAtTableOffset_eq room slot] at success
    cases success
    exact .appended valid sized room absent slot reached
      ((roomy (absent_congr pairs absent)).behind room which) value
  · obtain ⟨index, entry, held, same⟩ := not_absent absent
    obtain ⟨ret, found, place⟩ := valid.findEntry_present held same
    rw [add_found rehashed found place] at success
    cases success

theorem Usable.update (usable : Usable hash map) (small : map.count ≤ maxCount)
    (roomy : Absent hash map key → map.Roomy)
    (success : map.update hash key value = .ok after) : Usable hash after := by
  obtain ⟨ready, rehashed, valid, sized, pairs, room, free, which⟩ := usable.rehash small false
  by_cases absent : Absent hash ready key
  · obtain ⟨ret, found, noEntry, empty⟩ := valid.findEntry_absent absent
    obtain ⟨emptyFound, slot, reached⟩ := empty (free_pos free)
    rw [update_eq rehashed found noEntry emptyFound, addAtTableOffset_eq room slot] at success
    cases success
    exact .appended valid sized room absent slot reached
      ((roomy (absent_congr pairs absent)).behind room which) value
  · obtain ⟨index, entry, held, same⟩ := not_absent absent
    obtain ⟨ret, found, place⟩ := valid.findEntry_present held same
    rw [update_found rehashed found place] at success
    cases success
    have vec : (ready.assigned index value).vecCapacity = ready.vecCapacity :=
      List.length_modify _ _ _
    exact usable_of_room (valid.assigned held value) (by rw [Sized, vec]; exact sized)
      (by rw [vec]; exact room) free

theorem Usable.remove (usable : Usable hash map) (small : map.count ≤ maxCount)
    (success : map.remove hash key = .ok after) : Usable hash after := by
  obtain ⟨ready, rehashed, valid, sized, -, room, free, -⟩ :=
    usable.rehash small (map.loadFactor < minLoadFactor)
  by_cases absent : Absent hash ready key
  · obtain ⟨ret, found, noEntry, -⟩ := valid.findEntry_absent absent
    rw [remove_absent rehashed found noEntry] at success
    cases success
    exact usable_of_room valid sized room free
  · obtain ⟨index, entry, held, same⟩ := not_absent absent
    obtain ⟨ret, found, place⟩ := valid.findEntry_present held same
    rw [remove_found rehashed found place] at success
    cases success
    have vec : (ready.removed entry.tableOffset index).vecCapacity = ready.vecCapacity :=
      List.length_set
    have table : (ready.removed entry.tableOffset index).tableCapacity = ready.tableCapacity :=
      List.length_set
    exact usable_of_room (valid.removed held) (by rw [Sized, vec, table]; exact sized)
      (by rw [vec]; exact room)
      (by rw [free_removed (valid.pointed index entry held)]; exact free)

/-- Rearranging the entries keeps a map usable if it leaves room. -/
theorem Usable.rearranged (valid : Valid hash map) (sized : Sized map)
    (rearranged : Rearranged map after first row) (vec : after.vecCapacity = map.vecCapacity)
    (ready : after.isInIteration = false ∧ after.vecOffset = after.vecCapacity ∨
      after.vecOffset < after.vecCapacity ∧ 0 < map.free) : Usable hash after := by
  refine ⟨rearranged.valid valid, ?_, ?_⟩
  · rw [Sized, vec, rearranged.tableCapacity]
    exact sized
  · rw [rearranged.free_eq valid]
    exact ready

theorem Usable.copyCtor (usable : Usable hash map) (wanted : capacity ≤ maxCapacity)
    (success : map.copyCtor hash capacity = .ok after) : Usable hash after := by
  obtain ⟨copy, copied, valid, sized, -, inIteration, -, -, -, -, used⟩ :=
    copyCtorWith_spec (Map.rehash hash) (fun _ calm => rehashWithin_calm 1 calm)
      usable.valid usable.sized wanted
  rw [Map.copyCtor, copied] at success
  cases success
  exact Intact.usable ⟨valid, sized, inIteration, used⟩

/-- Sorting ends with an assertion on a map with holes that may not be rehashed. -/
theorem sortBy_ok (rehashed : Map.rehash hash map map.isSparse = .ok ready)
    (success : map.sortBy hash sortR compare = .ok after) : ready.isSparse = false := by
  rw [sortBy, rehashed] at success
  change (if (ready.vec.take ready.i).all Option.isSome then rebuildReferences _ else _) = _
    at success
  split at success
  · unfold rebuildReferences at success
    split at success
    · rename_i full
      exact isSparse_eq_false.mpr full.symm
    · cases success
  · cases success

theorem Usable.sort (usable : Usable hash map) (small : map.count ≤ maxCount)
    (permutes : ∀ order row, (sortR order row).Perm row)
    (success : map.sortBy hash sortR compare = .ok after) : Usable hash after := by
  obtain ⟨ready, rehashed, valid, sized, -, room, free, -⟩ := usable.rehash small map.isSparse
  have dense := sortBy_ok rehashed success
  obtain ⟨sorted, result, rearranged, -, vec⟩ :=
    sortBy_dense rehashed valid dense permutes compare
  rw [success] at result
  cases result
  refine .rearranged valid sized rearranged vec (.inr ⟨?_, free⟩)
  rw [vec, rearranged.vecOffset, rearranged.perm.length_eq, ← valid.counted, Nat.zero_add,
    isSparse_eq_false.mp dense]
  exact room

theorem sparse_lt (valid : Valid hash map) (sparse : map.isSparse = true) :
    map.count < map.vecOffset := by
  have bound := valid.i_le
  have different : map.i ≠ map.vecOffset := by
    intro same
    rw [isSparse_eq_false.mpr same] at sparse
    cases sparse
  unfold count
  omega

/-- Compaction with the first hole in the first or the second place. -/
theorem rearranged_packed (valid : Valid hash map) (sparse : map.isSparse = true)
    (hole : map.FirstHole 0 ∨ map.FirstHole 1) :
    ∃ first, Rearranged map map.sparseArrayCompact first map.entries ∧
      map.sparseArrayCompact.vecOffset = map.packedOffset ∧
      map.sparseArrayCompact.vecCapacity = map.vecCapacity ∧
      map.sparseArrayCompact.isInIteration = map.isInIteration := by
  have kept : ∀ index, map.FirstHole index →
      map.sparseArrayCompact.vecCapacity = map.vecCapacity ∧
        map.sparseArrayCompact.isInIteration = map.isInIteration := by
    intro index hole
    obtain ⟨vec, result, length, -⟩ := sparseArrayCompact_spec valid sparse hole
    rw [result]
    exact ⟨length, rfl⟩
  rcases hole with first | second
  · have rearranged := rearranged_compact_zero valid sparse first
    refine ⟨1, rearranged, ?_, kept 0 first⟩
    rw [rearranged.vecOffset, packedOffset, first.2.1, ← valid.counted, Nat.add_comm]
    rfl
  · have rearranged := rearranged_compact valid sparse second
    refine ⟨0, rearranged, ?_, kept 1 second⟩
    rw [rearranged.vecOffset, packedOffset, if_pos (second.2.2 0 Nat.zero_lt_one),
      ← valid.counted, Nat.zero_add]
    rfl

theorem packedOffset_le (valid : Valid hash map) (sparse : map.isSparse = true) :
    map.packedOffset ≤ map.vecOffset := by
  have bound := sparse_lt valid sparse
  unfold packedOffset
  split <;> omega

theorem Usable.sparseArrayCompact (usable : Usable hash map) (compacts : map.Compacts) :
    Usable hash map.sparseArrayCompact := by
  by_cases sparse : map.isSparse = true
  · obtain ⟨hole, room⟩ := compacts sparse
    obtain ⟨first, rearranged, offset, vec, inIteration⟩ :=
      rearranged_packed usable.valid sparse hole
    have bound := packedOffset_le usable.valid sparse
    have inside := usable.valid.inside
    refine .rearranged usable.valid usable.sized rearranged vec ?_
    rw [offset, vec, inIteration]
    rcases Nat.lt_or_eq_of_le (Nat.le_trans bound inside) with less | full
    · exact .inr ⟨less, room.resolve_right (Nat.ne_of_lt less)⟩
    · refine .inl ⟨?_, full⟩
      rcases usable.ready with ⟨notIterating, -⟩ | ⟨room, -⟩
      · exact notIterating
      · omega
  · rw [Map.sparseArrayCompact, if_pos (isSparse_eq_false.mp (Bool.eq_false_iff.mpr sparse))]
    exact usable

theorem Usable.withRefcount (usable : Usable hash map) (refcount : Nat) :
    Usable hash { map with refcount := refcount } := by
  obtain ⟨⟨inside, counted, pointed, live, reached, distinct⟩, sized, ready⟩ := usable
  exact ⟨⟨inside, counted, pointed, live, reached, distinct⟩, sized, ready⟩

theorem Usable.setIsInIteration (usable : Usable hash map)
    (room : map.vecOffset < map.vecCapacity) (free : 0 < map.free) (inIteration : Bool) :
    Usable hash (map.setIsInIteration inIteration) := by
  obtain ⟨⟨inside, counted, pointed, live, reached, distinct⟩, sized, -⟩ := usable
  exact ⟨⟨inside, counted, pointed, live, reached, distinct⟩, sized, .inr ⟨room, free⟩⟩

/-- Starting an iteration compacts the map and closes it to rehashing. -/
theorem Usable.iteratorInit (usable : Usable hash map)
    (harmless : map.count ≠ 0 → map.Compacts ∧ 0 < map.free ∧
      (if map.isSparse then map.packedOffset else map.count) < map.vecCapacity)
    (success : map.iteratorInit = .ok (first, after)) : Usable hash after := by
  unfold Map.iteratorInit at success
  split at success
  · cases success
    exact usable
  · rename_i notEmpty
    obtain ⟨compacts, free, room⟩ := harmless notEmpty
    have compacted := usable.sparseArrayCompact compacts
    have facts : map.sparseArrayCompact.vecOffset < map.sparseArrayCompact.vecCapacity ∧
        0 < map.sparseArrayCompact.free := by
      by_cases sparse : map.isSparse = true
      · obtain ⟨first, rearranged, offset, vec, -⟩ :=
          rearranged_packed usable.valid sparse (compacts sparse).1
        rw [if_pos sparse] at room
        rw [offset, vec, rearranged.free_eq usable.valid]
        exact ⟨room, free⟩
      · have full := isSparse_eq_false.mp (Bool.eq_false_iff.mpr sparse)
        rw [if_neg sparse, count, full] at room
        rw [Map.sparseArrayCompact, if_pos full]
        exact ⟨room, free⟩
    dsimp only at success
    generalize map.sparseArrayCompact.getKvAtIndex 0 = found at success
    cases found with
    | error failure => cases success
    | ok pair =>
      change (if map.sparseArrayCompact.isInIteration = true then _ else _) = _ at success
      split at success
      · cases success
      · cases success
        exact compacted.setIsInIteration facts.1 facts.2 true

theorem Usable.iteratorNext (usable : Usable hash map)
    (success : map.iteratorNext index = .ok (next, after)) : Usable hash after := by
  unfold Map.iteratorNext at success
  split at success
  · cases success
    obtain ⟨⟨inside, counted, pointed, live, reached, distinct⟩, sized, ready⟩ := usable
    exact ⟨⟨inside, counted, pointed, live, reached, distinct⟩, sized,
      ready.imp_left fun full => ⟨rfl, full.2⟩⟩
  · generalize map.getKvAtIndex (index + 1) = found at success
    cases found with
    | error failure => cases success
    | ok pair =>
      cases success
      exact usable

theorem map_eq_ok {ran : MapResult γ} {change : γ → δ} (success : ran.map change = .ok value) :
    ∃ result, ran = .ok result ∧ change result = value := by
  cases ran with
  | error failure => cases success
  | ok result => exact ⟨result, rfl, Except.ok.inj success⟩

theorem Usable.delref (usable : Usable hash map) (kept : map.delref = some after) :
    Usable hash after := by
  unfold Map.delref at kept
  split at kept
  · cases kept
    exact usable
  · split at kept
    · cases kept
    · cases kept
      exact usable.withRefcount _

/-- An update of a usable map does not throw. -/
theorem Usable.update_ok (usable : Usable hash map) (small : map.count ≤ maxCount) (key : Str)
    (value : α) : ∃ after, map.update hash key value = .ok after := by
  by_cases absent : Absent hash map key
  · exact (usable.accepts small).update key value (usable.valid.absent_iff_find.mp absent)
  · obtain ⟨ready, rehashed, valid, -, pairs, -⟩ := usable.rehash small false
    obtain ⟨index, entry, held, same⟩ := not_absent (mt (absent_congr pairs) absent)
    obtain ⟨ret, found, place⟩ := valid.findEntry_present held same
    exact ⟨_, update_found rehashed found place value⟩

/-- What a call leaves that throws though it meets the condition. -/
theorem Usable.thrown (usable : Usable hash map) {event : Event α β}
    (harmless : event.Harmless hash map)
    (failure : event.apply hash sortR map = .error (.threw error)) :
    ∃ after, event.leaves map = some after ∧ Usable hash after := by
  obtain ⟨small, harmless⟩ := harmless
  cases event with
  | sparseArrayCompact => exact ⟨map, rfl, usable⟩
  | iteratorNext index => exact ⟨map, rfl, usable⟩
  | iteratorInit =>
    refine ⟨map.sparseArrayCompact, rfl, ?_⟩
    by_cases empty : map.count = 0
    · have started : map.iteratorInit = .ok (none, map) := if_pos empty
      rw [Event.apply, started] at failure
      cases failure
    · exact usable.sparseArrayCompact (harmless empty).1
  | op call =>
    cases call with
    | add key value =>
      obtain ⟨-, lasts⟩ := harmless
      by_cases absent : Absent hash map key
      · obtain ⟨after, added⟩ :=
          (usable.accepts small).add key value (usable.valid.absent_iff_find.mp absent)
        change map.add hash key value = _ at failure
        rw [added] at failure
        cases failure
      · exact ⟨map, abandoned_eq_self_iff.mpr (lasts absent), usable⟩
    | update key value =>
      obtain ⟨after, updated⟩ := usable.update_ok small key value
      change map.update hash key value = _ at failure
      rw [updated] at failure
      cases failure
    | remove | find | rehash | copyCtor | sort | sortArg | addref | delref => exact ⟨map, rfl, usable⟩

/-- Every call that meets the condition leaves a usable map. -/
theorem Usable.step (usable : Usable hash map)
    (permutes : ∀ compare row, (sortR compare row).Perm row) {event : Event α β}
    {state : Option (Map α)}
    (step : Transition.Guarded (AtPointer (Event.Harmless hash)) (EventStep hash sortR) (some map)
      event state) :
    ∃ after, state = some after ∧ Usable hash after := by
  obtain ⟨careful, taken⟩ := step
  have harmless := careful map rfl
  cases taken with
  | threw allowed failure => exact usable.thrown harmless failure
  | returned allowed success =>
    obtain ⟨small, harmless⟩ := harmless
    refine ⟨_, rfl, ?_⟩
    cases event with
    | sparseArrayCompact =>
      cases success
      exact usable.sparseArrayCompact harmless
    | iteratorInit =>
      obtain ⟨⟨first, result⟩, started, rfl⟩ := map_eq_ok success
      exact usable.iteratorInit harmless started
    | iteratorNext index =>
      obtain ⟨⟨next, result⟩, moved, rfl⟩ := map_eq_ok success
      exact usable.iteratorNext moved
    | op call =>
      cases call with
      | add key value => exact usable.add small harmless.1 success
      | update key value => exact usable.update small harmless success
      | remove key => exact usable.remove small success
      | find key =>
        change (map.find hash key >>= fun _ => .ok map) = _ at success
        rw [usable.valid.find_eq] at success
        cases success
        exact usable
      | rehash force =>
        obtain ⟨ready, rehashed, valid, sized, -, room, free, -⟩ := usable.rehash small force
        change map.rehash hash force = _ at success
        rw [rehashed] at success
        cases success
        exact usable_of_room valid sized room free
      | copyCtor capacity => exact usable.copyCtor allowed success
      | sort compare => exact usable.sort small permutes success
      | sortArg compare arg =>
        change map.sortBy hash sortR (fun left right => compare left right arg) = _ at success
        exact usable.sort small permutes success
      | addref =>
        cases success
        unfold addref
        split
        · exact usable.withRefcount _
        · exact usable
      | delref =>
        unfold Event.apply Op.apply at success
        cases kept : map.delref with
        | none =>
          rw [kept] at success
          cases success
        | some next =>
          rw [kept] at success
          cases success
          exact usable.delref kept

theorem Usable.run (usable : Usable hash map)
    (permutes : ∀ compare row, (sortR compare row).Perm row) {events : List (Event α β)}
    {state : Option (Map α)}
    (run : Transition.Run (Transition.Guarded (AtPointer (Event.Harmless hash))
      (EventStep hash sortR)) (some map) events state) :
    ∃ last, state = some last ∧ Usable hash last := by
  refine run.invariant (fun state => ∃ map, state = some map ∧ Usable hash map) ?_
    ⟨map, rfl, usable⟩
  rintro state event next ⟨map, rfl, usable⟩ step
  exact usable.step permutes step

/-- In every run whose steps meet the condition, the map is there and accepts every key that
is not there. -/
theorem accepts_run (permutes : ∀ compare row, (sortR compare row).Perm row)
    (wanted : capacity ≤ maxCapacity) :
    ∃ first, ctor capacity = .ok first ∧ ∀ (events : List (Event α β)) state,
      Transition.Run (Transition.Guarded (AtPointer (Event.Harmless hash)) (EventStep hash sortR))
        (some first) events state →
      ∃ last, state = some last ∧ (last.count ≤ maxCount → Accepts hash last) := by
  obtain ⟨first, created, intact, -⟩ := Intact.ctor (α := α) hash wanted
  refine ⟨first, created, fun events state run => ?_⟩
  obtain ⟨last, ended, usable⟩ := intact.usable.run permutes run
  exact ⟨last, ended, usable.accepts⟩

theorem accepts_run_iteration : ∃ first last : Map Nat, ctor 4 = .ok first ∧
    Transition.Run
      (Transition.Guarded (AtPointer (Event.Harmless fun _ => 0))
        (EventStep (fun _ => 0) fun _ row => row))
      (some first) [(.op (.add (bytes "a") 1) : Event Nat Unit), .iteratorInit,
        .op (.update (bytes "bb") 2), .op (.add (bytes "a") 3), .iteratorNext 0, .iteratorNext 1]
      (some last) ∧
    last.count = 2 ∧ Accepts (fun _ => 0) last := by
  have permutes : ∀ (compare : MapEntry Nat → MapEntry Nat → Int) (row : List (MapEntry Nat)),
      row.Perm row := fun _ row => .refl row
  obtain ⟨first, created, every⟩ :=
    @accepts_run Nat Unit (fun _ => 0) (fun _ row => row) 4 permutes (by decide)
  have start : ctor (α := Nat) 4 = .ok
    ⟨0, 0, false, 0, [none, none, none, none], List.replicate 11 .null⟩ := rfl
  rw [created] at start
  cases start
  have run : Transition.Run
      (Transition.Guarded (AtPointer (Event.Harmless fun _ => 0))
        (EventStep (fun _ => 0) fun _ row => row))
      (some ⟨0, 0, false, 0, [none, none, none, none], List.replicate 11 .null⟩)
      [(.op (.add (bytes "a") 1) : Event Nat Unit), .iteratorInit,
        .op (.update (bytes "bb") 2), .op (.add (bytes "a") 3), .iteratorNext 0, .iteratorNext 1]
      (some ⟨2, 2, false, 0, [some ⟨bytes "a", 1, 0⟩, some ⟨bytes "bb", 2, 1⟩, none, none],
        .entry 0 :: .entry 1 :: List.replicate 9 .null⟩) := by
    refine .cons ⟨?_, .returned trivial rfl⟩ (.cons ⟨?_, .returned trivial rfl⟩
      (.cons ⟨?_, .returned trivial rfl⟩ (.cons ⟨?_, .threw trivial rfl⟩
        (.cons ⟨?_, .returned trivial rfl⟩ (.cons ⟨?_, .returned trivial rfl⟩ (.nil _))))))
    · rintro map ⟨⟩
      refine ⟨by decide, fun _ => .inr (.inr (by decide)), fun present => absurd ?_ present⟩
      rintro index entry ⟨inside, -⟩
      exact absurd inside (Nat.not_lt_zero index)
    · rintro map ⟨⟩
      refine ⟨by decide, fun _ => ⟨?_, by decide, by decide⟩⟩
      intro sparse
      cases sparse
    · rintro map ⟨⟩
      exact ⟨by decide, fun _ => ⟨by decide, by decide⟩⟩
    · rintro map ⟨⟩
      exact ⟨by decide, fun _ => ⟨by decide, by decide⟩, fun _ => .inl rfl⟩
    · rintro map ⟨⟩
      exact ⟨by decide, trivial⟩
    · rintro map ⟨⟩
      exact ⟨by decide, trivial⟩
  obtain ⟨last, ended, accepts⟩ := every _ _ run
  cases ended
  exact ⟨_, _, created, run, rfl, accepts (by decide)⟩

/-- A vector of three and a table of five, of whose slots some are tombstones. -/
def worn (tombstones : Nat) : Map Nat :=
  ⟨1, 1, false, 0, [some ⟨bytes "a", 1, 0⟩, none, none],
    .entry 0 :: (List.replicate tombstones .tombstone ++ List.replicate (4 - tombstones) .null)⟩

/-- Adding a key, removing it and compacting costs a free slot. -/
theorem worn_cycle (left : tombstones < 4) :
    Transition.Run (EventStep (fun _ => 0) fun _ row => row) (some (worn tombstones))
      [.op (.add (bytes "bb") 2), .op (.remove (bytes "bb")), (.sparseArrayCompact : Event Nat Unit)]
      (some (worn (tombstones + 1))) := by
  rcases tombstones with _ | _ | _ | _ | tombstones
  case succ.succ.succ.succ => omega
  all_goals exact .cons (.returned trivial rfl) (.cons (.returned trivial rfl)
    (.cons (.returned trivial rfl) (.nil _)))

/-- Tombstones are not taken for free: a map with one entry refuses another. -/
theorem not_accepts_tombstones : ∃ first : Map Nat, ctor 3 = .ok first ∧
    Transition.Run (EventStep (fun _ => 0) fun _ row => row) (some first)
      ((.op (.add (bytes "a") 1) : Event Nat Unit) :: (List.replicate 4
        [.op (.add (bytes "bb") 2), .op (.remove (bytes "bb")), .sparseArrayCompact]).flatten)
      (some (worn 4)) ∧
    (worn 4).count = 1 ∧ ¬Accepts (fun _ => 0) (worn 4) := by
  refine ⟨⟨0, 0, false, 0, [none, none, none], List.replicate 5 .null⟩, rfl, ?_, rfl, ?_⟩
  · have added : EventStep (fun _ => 0) (fun _ row => row)
        (some ⟨0, 0, false, 0, [none, none, none], List.replicate 5 .null⟩)
        (.op (.add (bytes "a") 1) : Event Nat Unit) (some (worn 0)) := .returned trivial rfl
    refine .cons added ?_
    exact (worn_cycle (by decide)).append ((worn_cycle (by decide)).append
      ((worn_cycle (by decide)).append (worn_cycle (by decide))))
  · intro accepts
    obtain ⟨after, added⟩ := accepts.add (bytes "bb") 2 rfl
    cases added

end Map

end HandlebarsC
