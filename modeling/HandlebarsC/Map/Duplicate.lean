import HandlebarsC.Map.Shared

/-!
Adding a key that is there: what is left of the map that the caller has.
-/

namespace HandlebarsC

open Effect

namespace Map

variable {α β : Type} {hash : StringHash} {sortR : SortR α} {map ready after : Map α} {key : Str}

/-- A map in working order, which may be full or in iteration. -/
structure Solid (hash : StringHash) (map : Map α) : Prop where
  valid : Valid hash map
  sized : Sized map

/-- No call loses the order of a map by compacting it, or grows it beyond every table. -/
def Event.Whole (map : Map α) (event : Event α β) : Prop :=
  map.count ≤ maxCount ∧
    match event with
    | .sparseArrayCompact | .iteratorInit =>
      map.isSparse = true → map.FirstHole 0 ∨ map.FirstHole 1
    | _ => True

theorem Fresh.solid (fresh : Fresh hash map after) : Solid hash after := ⟨fresh.valid, fresh.sized⟩

/-- A search that finds no free slot has seen the whole table. -/
theorem Valid.findEntry_full (valid : Valid hash map) (absent : Absent hash map key)
    (full : MapSlot.null ∉ map.table) :
    ∃ ret, findEntry hash map key = .ok ret ∧ ret.emptyFound = false := by
  have passes : ∀ earlier < map.tableCapacity, Passes hash map key
      (Probe.place map.tableCapacity (map.startOf hash key) (0 + earlier)) := by
    intro earlier order
    rw [Nat.zero_add]
    obtain ⟨slot, taken⟩ := valid.slot order (map.startOf hash key)
    refine valid.passes taken ?_ ?_
    · rintro rfl
      exact full (List.mem_of_getElem? taken)
    · intro index entry held same
      rw [absent index entry held] at same
      cases same
  obtain ⟨later, -, notFound, reached⟩ :=
    findLoop_passes map.tableCapacity 0 0 ⟨false, 0, none⟩ passes
  exact ⟨later, reached, notFound⟩

/-- Where the search for a key that is not there leads, the key can go. -/
theorem Solid.appended (solid : Solid hash ready) (absent : Absent hash ready key)
    (found : findEntry hash ready key = .ok ret) (emptyFound : ret.emptyFound = true) {value : α}
    (added : ready.addAtTableOffset key value ret.emptyOffset = .ok after) : Solid hash after := by
  by_cases room : MapSlot.null ∈ ready.table
  · obtain ⟨other, foundToo, -, search⟩ := solid.valid.findEntry_absent absent
    obtain ⟨-, slot, reached⟩ := search room
    rw [found] at foundToo
    cases foundToo
    unfold addAtTableOffset at added
    split at added
    · rename_i fits
      cases added
      refine ⟨solid.valid.appended fits.1 absent slot reached value, ?_⟩
      have vec : (ready.appended key value ret.emptyOffset).vecCapacity = ready.vecCapacity :=
        List.length_set
      have table : (ready.appended key value ret.emptyOffset).tableCapacity = ready.tableCapacity :=
        List.length_set
      change chooseTableCapacity (ready.appended key value ret.emptyOffset).vecCapacity =
        some (ready.appended key value ret.emptyOffset).tableCapacity
      rw [vec, table]
      exact solid.sized
    · cases added
  · obtain ⟨other, foundToo, notFound⟩ := solid.valid.findEntry_full absent room
    rw [found] at foundToo
    cases foundToo
    rw [notFound] at emptyFound
    cases emptyFound

theorem Solid.rehash (solid : Solid hash map) (small : map.count ≤ maxCount) (force : Bool) :
    ∃ ready, Map.rehash hash map force = .ok ready ∧ Solid hash ready ∧ ready.pairs = map.pairs := by
  rcases rehash_spec solid.valid solid.sized small force with ⟨same, -⟩ | ⟨fresh, result, isFresh, -⟩
  · exact ⟨map, same, solid, rfl⟩
  · exact ⟨fresh, result, isFresh.solid, isFresh.pairs⟩

theorem Solid.add (solid : Solid hash map) (small : map.count ≤ maxCount) {value : α}
    (success : map.add hash key value = .ok after) : Solid hash after := by
  obtain ⟨ready, rehashed, solidReady, -⟩ := solid.rehash small false
  by_cases absent : Absent hash ready key
  · obtain ⟨ret, found, noEntry, -⟩ := solidReady.valid.findEntry_absent absent
    rw [Map.add, addAfter, rehashed] at success
    change (findEntry hash ready key >>= _) = _ at success
    rw [found] at success
    change (if ret.entry.isSome || !ret.emptyFound then _ else _) = _ at success
    cases emptyFound : ret.emptyFound with
    | false =>
      rw [emptyFound, Bool.not_false, Bool.or_true] at success
      cases success
    | true =>
      rw [noEntry, emptyFound] at success
      exact solidReady.appended absent found emptyFound success
  · obtain ⟨index, entry, held, same⟩ := not_absent absent
    obtain ⟨ret, found, place⟩ := solidReady.valid.findEntry_present held same
    rw [add_found rehashed found place] at success
    cases success

theorem Solid.assigned (solid : Solid hash map) (held : map.Holds index entry) (value : α) :
    Solid hash (map.assigned index value) := by
  refine ⟨solid.valid.assigned held value, ?_⟩
  have vec : (map.assigned index value).vecCapacity = map.vecCapacity := List.length_modify _ _ _
  rw [Sized, vec]
  exact solid.sized

theorem Solid.update (solid : Solid hash map) (small : map.count ≤ maxCount) {value : α}
    (success : map.update hash key value = .ok after) : Solid hash after := by
  obtain ⟨ready, rehashed, solidReady, -⟩ := solid.rehash small false
  by_cases absent : Absent hash ready key
  · obtain ⟨ret, found, noEntry, -⟩ := solidReady.valid.findEntry_absent absent
    rw [Map.update, rehashed] at success
    change (findEntry hash ready key).bind _ = _ at success
    rw [found, Except.bind, noEntry] at success
    cases emptyFound : ret.emptyFound with
    | false =>
      rw [emptyFound] at success
      cases success
    | true =>
      rw [emptyFound] at success
      exact solidReady.appended absent found emptyFound success
  · obtain ⟨index, entry, held, same⟩ := not_absent absent
    obtain ⟨ret, found, place⟩ := solidReady.valid.findEntry_present held same
    rw [update_found rehashed found place] at success
    cases success
    exact solidReady.assigned held value

theorem Solid.remove (solid : Solid hash map) (small : map.count ≤ maxCount)
    (success : map.remove hash key = .ok after) : Solid hash after := by
  obtain ⟨ready, rehashed, solidReady, -⟩ := solid.rehash small (map.loadFactor < minLoadFactor)
  by_cases absent : Absent hash ready key
  · obtain ⟨ret, found, noEntry, -⟩ := solidReady.valid.findEntry_absent absent
    rw [remove_absent rehashed found noEntry] at success
    cases success
    exact solidReady
  · obtain ⟨index, entry, held, same⟩ := not_absent absent
    obtain ⟨ret, found, place⟩ := solidReady.valid.findEntry_present held same
    rw [remove_found rehashed found place] at success
    cases success
    have vec : (ready.removed entry.tableOffset index).vecCapacity = ready.vecCapacity :=
      List.length_set
    have table : (ready.removed entry.tableOffset index).tableCapacity = ready.tableCapacity :=
      List.length_set
    exact ⟨solidReady.valid.removed held, by rw [Sized, vec, table]; exact solidReady.sized⟩

theorem Solid.rearranged (solid : Solid hash map) (rearranged : Rearranged map after first row)
    (vec : after.vecCapacity = map.vecCapacity) : Solid hash after :=
  ⟨rearranged.valid solid.valid, by rw [Sized, vec, rearranged.tableCapacity]; exact solid.sized⟩

theorem Solid.sort (solid : Solid hash map) (small : map.count ≤ maxCount)
    (permutes : ∀ order row, (sortR order row).Perm row) {compare : Str × α → Str × α → Int}
    (success : map.sortBy hash sortR compare = .ok after) : Solid hash after := by
  obtain ⟨ready, rehashed, solidReady, -⟩ := solid.rehash small map.isSparse
  have dense := sortBy_ok rehashed success
  obtain ⟨sorted, result, rearranged, -, vec⟩ :=
    sortBy_dense rehashed solidReady.valid dense permutes compare
  rw [success] at result
  cases result
  exact solidReady.rearranged rearranged vec

theorem Solid.sparseArrayCompact (solid : Solid hash map)
    (hole : map.isSparse = true → map.FirstHole 0 ∨ map.FirstHole 1) :
    Solid hash map.sparseArrayCompact := by
  by_cases sparse : map.isSparse = true
  · obtain ⟨first, rearranged, -, vec, -⟩ := rearranged_packed solid.valid sparse (hole sparse)
    exact solid.rearranged rearranged vec
  · rw [Map.sparseArrayCompact, if_pos (isSparse_eq_false.mp (Bool.eq_false_iff.mpr sparse))]
    exact solid

/-- The flag and the count of a map have no part in its order. -/
theorem Solid.flagged (solid : Solid hash map) (inIteration : Bool) (refcount : Nat) :
    Solid hash { map with isInIteration := inIteration, refcount := refcount } := by
  obtain ⟨⟨inside, counted, pointed, live, reached, distinct⟩, sized⟩ := solid
  exact ⟨⟨inside, counted, pointed, live, reached, distinct⟩, sized⟩

theorem Solid.iteratorInit (solid : Solid hash map)
    (hole : map.isSparse = true → map.FirstHole 0 ∨ map.FirstHole 1)
    (success : map.iteratorInit = .ok (first, after)) : Solid hash after := by
  unfold Map.iteratorInit at success
  split at success
  · cases success
    exact solid
  · dsimp only at success
    generalize map.sparseArrayCompact.getKvAtIndex 0 = found at success
    cases found with
    | error failure => cases success
    | ok pair =>
      change (if map.sparseArrayCompact.isInIteration = true then _ else _) = _ at success
      split at success
      · cases success
      · cases success
        exact (solid.sparseArrayCompact hole).flagged true _

theorem Solid.iteratorNext (solid : Solid hash map)
    (success : map.iteratorNext index = .ok (next, after)) : Solid hash after := by
  unfold Map.iteratorNext at success
  split at success
  · cases success
    exact solid.flagged false _
  · generalize map.getKvAtIndex (index + 1) = found at success
    cases found with
    | error failure => cases success
    | ok pair =>
      cases success
      exact solid

theorem Solid.copyCtor (solid : Solid hash map) (wanted : capacity ≤ maxCapacity)
    (success : map.copyCtor hash capacity = .ok after) : Solid hash after := by
  obtain ⟨copy, copied, valid, sized, -⟩ :=
    copyCtorWith_spec (Map.rehash hash) (fun _ calm => rehashWithin_calm 1 calm)
      solid.valid solid.sized wanted
  rw [Map.copyCtor, copied] at success
  cases success
  exact ⟨valid, sized⟩

theorem Solid.op (solid : Solid hash map) (small : map.count ≤ maxCount)
    (permutes : ∀ compare row, (sortR compare row).Perm row) {call : Op α β}
    (allowed : call.Allowed Set.univ map) (success : call.apply hash sortR map = .ok after) :
    Solid hash after := by
  cases call with
  | add key value => exact solid.add small success
  | update key value => exact solid.update small success
  | remove key => exact solid.remove small success
  | find key =>
    change (map.find hash key >>= fun _ => .ok map) = _ at success
    rw [solid.valid.find_eq] at success
    cases success
    exact solid
  | rehash force =>
    obtain ⟨ready, rehashed, solidReady, -⟩ := solid.rehash small force
    change map.rehash hash force = _ at success
    rw [rehashed] at success
    cases success
    exact solidReady
  | copyCtor capacity => exact solid.copyCtor allowed success
  | sort compare => exact solid.sort small permutes success
  | sortArg compare arg =>
    change map.sortBy hash sortR (fun left right => compare left right arg) = _ at success
    exact solid.sort small permutes success
  | addref =>
    cases success
    unfold addref
    split
    · exact solid.flagged _ _
    · exact solid
  | delref =>
    simp only [Op.apply, Map.delref] at success
    split at success
    · rename_i next kept
      cases success
      split at kept
      · cases kept
        exact solid
      · split at kept
        · cases kept
        · cases kept
          exact solid.flagged _ _
    · cases success

/-- A call that throws takes a reference at most. -/
theorem Solid.abandoned (solid : Solid hash map) (left : map.abandoned = some after) :
    Solid hash after := by
  obtain ⟨refcount, rfl⟩ := abandoned_counted left
  exact solid.flagged map.isInIteration refcount

theorem Solid.thrown (solid : Solid hash map) {event : Event α β} (whole : event.Whole map)
    (left : event.leaves map = some after) : Solid hash after := by
  cases event with
  | sparseArrayCompact | iteratorNext =>
    cases left
    exact solid
  | iteratorInit =>
    cases left
    exact solid.sparseArrayCompact whole.2
  | op call =>
    cases call with
    | add | update => exact solid.abandoned left
    | remove | find | rehash | copyCtor | sort | sortArg | addref | delref =>
      cases left
      exact solid

/-- What one call leaves is in working order, and so is what a run leaves. -/
theorem Solid.step (solid : Solid hash map)
    (permutes : ∀ compare row, (sortR compare row).Perm row) {event : Event α β}
    (step : Transition.Guarded (AtPointer Event.Whole) (EventStep hash sortR) (some map) event
      (some after)) :
    Solid hash after := by
  obtain ⟨wholes, taken⟩ := step
  have whole := wholes map rfl
  generalize ended : some after = state at taken
  cases taken with
  | threw allowed failure => exact solid.thrown whole ended.symm
  | returned allowed success =>
    cases ended
    obtain ⟨small, whole⟩ := whole
    cases event with
    | sparseArrayCompact =>
      cases success
      exact solid.sparseArrayCompact whole
    | iteratorInit =>
      obtain ⟨⟨first, result⟩, started, rfl⟩ := map_eq_ok success
      exact solid.iteratorInit whole started
    | iteratorNext index =>
      obtain ⟨⟨next, result⟩, moved, rfl⟩ := map_eq_ok success
      exact solid.iteratorNext moved
    | op call => exact solid.op small permutes allowed success

theorem Solid.run (permutes : ∀ compare row, (sortR compare row).Perm row)
    (created : ctor capacity = .ok map) {events : List (Event α β)}
    (run : Transition.Run (Transition.Guarded (AtPointer Event.Whole) (EventStep hash sortR))
      (some map) events (some after)) :
    Solid hash after := by
  have small : capacity ≤ maxCapacity := by
    unfold ctor at created
    split at created
    · rename_i chosen
      exact (chooseTableCapacity_spec chosen).2.2
    · cases created
  obtain ⟨first, createdToo, intact, -⟩ := Intact.ctor (α := α) hash small
  rw [created] at createdToo
  cases createdToo
  refine run.invariant (fun state => ∀ map ∈ state, Solid hash map) ?_ ?_ after rfl
  · rintro (_ | map) event (_ | next) solid step
    · rintro map ⟨⟩
    · cases step.2
    · rintro map ⟨⟩
    · rintro map ⟨⟩
      exact (solid map rfl).step permutes step
  · rintro map ⟨⟩
    exact ⟨intact.valid, intact.sized⟩

end Map

namespace Counted

variable {α : Type} {hash : StringHash} {store : Store α} {addr : Nat} {map : Map α} {key : Str}

/-- Values that are not looked into. -/
def noMaps (_ : α) : Option Nat := none

theorem holdAll_noMaps (values : List α) : holdAll noMaps values = (pure () : Counted α Unit) := by
  induction values with
  | nil => rfl
  | cons value rest ih => exact ih

theorem dropAllWith_noMaps (delref : Nat → Counted α Unit) (values : List α) :
    dropAllWith noMaps delref values = pure () := by
  induction values with
  | nil => rfl
  | cons value rest ih => exact ih

theorem put_put (first second : Option (Map α)) :
    (store.put addr first).put addr second = store.put addr second := by
  unfold Store.put
  rw [List.set_set]

theorem put_push (copy other : Map α) :
    (store.push copy).put store.maps.length (some other) = store.push other := by
  unfold Store.put Store.push
  rw [List.set_append_right _ _ (Nat.le_refl _), Nat.sub_self]
  rfl

theorem addref_pushed (copy : Map α) :
    addref store.maps.length (store.push copy) = (.ok () (store.push copy.addref), []) := by
  rw [addref_live (Store.live_push_self copy), put_push]

/-- With its last reference a map is freed. -/
theorem delref_noMaps (live : store.live addr = some map) :
    delref noMaps addr store = (.ok () (store.put addr map.delref), []) := by
  unfold delref
  rw [Proc.bind_read, delrefWithin, Proc.bind_ran (load_live live)]
  cases counted : map.delref with
  | some kept => rfl
  | none =>
    dsimp only
    rw [dropAllWith_noMaps]
    change (Outcome.ok () ((store.put addr _).put addr none), []) = _
    rw [put_put]

/-- A rehash that is called for leaves the caller's map with one reference less. -/
theorem rehashAt_spec (solid : Map.Solid hash map) (small : map.count ≤ Map.maxCount)
    (live : store.live addr = some map) (force : Bool) :
    (map.needsRehash force = false ∧ rehashAt noMaps hash addr force store = (.ok addr store, [])) ∨
    (map.needsRehash force = true ∧ ∃ ready, Map.Solid hash ready ∧ ready.pairs = map.pairs ∧
      ready.vecOffset < ready.vecCapacity ∧
      rehashAt noMaps hash addr force store =
        (.ok store.maps.length ((store.push ready).put addr map.delref), [])) := by
  unfold rehashAt
  rw [Proc.bind_ran (load_live live)]
  cases needed : map.needsRehash force with
  | false => exact .inl ⟨rfl, rfl⟩
  | true =>
    right
    rw [if_pos rfl]
    have fits : 2 ^ Map.chooseVecCapacityLog2 (map.i + 1) ≤ Map.maxCapacity :=
      Map.chosen_le (Nat.succ_le_succ small)
    obtain ⟨copy, copied, valid, sized, pairs, inIteration, refcount, dense, count, vec, free⟩ :=
      Map.copyCtorWith_spec (Map.rehash hash) (fun _ calm => Map.rehashWithin_calm 1 calm)
        solid.valid solid.sized fits
    have made : copyCtorAt noMaps hash addr (2 ^ Map.chooseVecCapacityLog2 (map.i + 1)) store =
        (.ok store.maps.length (store.push copy), []) := by
      unfold copyCtorAt
      rw [Proc.bind_ran (load_live live), Map.copyCtor, lift_ok copied, holdAll_noMaps]
      rfl
    rw [Proc.bind_ran made]
    have room : copy.vecOffset < copy.vecCapacity := by
      have above := Map.lt_chosen (map.i + 1)
      rw [vec, dense, count]
      omega
    have solidCopy : Map.Solid hash copy := ⟨valid, sized⟩
    obtain ⟨ready, owned, solidReady, same, roomReady⟩ : ∃ ready : Map α,
        Proc.when (map.refcount ≥ 1) (addref store.maps.length) (store.push copy) =
          (.ok () (store.push ready), []) ∧
        Map.Solid hash ready ∧ ready.pairs = copy.pairs ∧ ready.vecOffset < ready.vecCapacity := by
      by_cases held : map.refcount ≥ 1
      · have counted : copy.addref = { copy with refcount := 1 } := by
          rw [Map.addref, refcount]
          rfl
        refine ⟨copy.addref, by rw [decide_eq_true held, Proc.when, if_pos rfl, addref_pushed], ?_⟩
        rw [counted]
        exact ⟨solidCopy.flagged _ _, rfl, room⟩
      · exact ⟨copy, by rw [decide_eq_false held]; rfl, solidCopy, rfl, room⟩
    refine ⟨rfl, ready, solidReady, same.trans pairs, roomReady, ?_⟩
    have liveAfter : (store.push ready).live addr = some map := by
      rw [Store.live_push_other (Store.lt_of_live live), live]
    rw [Proc.bind_ran owned, Proc.bind_ran (delref_noMaps liveAfter)]
    rfl

/-- What is left at the address of the caller's map by a rehash. -/
theorem live_rehashed (live : store.live addr = some map) (ready : Map α) :
    ((store.push ready).put addr map.delref).live addr = map.delref ∧
      ((store.push ready).put addr map.delref).live store.maps.length = some ready := by
  have bound := Store.lt_of_live live
  constructor
  · refine Store.live_put_self ?_ _
    rw [Store.length_push]
    omega
  · rw [Store.live_put_other (by omega), Store.live_push_self]

theorem addRehashed_present (solid : Map.Solid hash map) (live : store.live addr = some map)
    (present : ¬Map.Absent hash map key) (value : α) :
    addRehashed noMaps hash key value addr store = (.thrown store, []) := by
  obtain ⟨index, entry, held, equal⟩ := Map.not_absent present
  obtain ⟨ret, found, place⟩ := solid.valid.findEntry_present held equal
  unfold addRehashed
  rw [Proc.bind_ran (load_live live), lift_ok found, pure_bind, place]
  rfl

/-- A key that is there makes `handlebars_map_add` throw, after the rehash. -/
theorem addAt_present (solid : Map.Solid hash map) (small : map.count ≤ Map.maxCount)
    (live : store.live addr = some map) (present : ¬Map.Absent hash map key) (value : α) :
    ∃ after, addAt noMaps hash addr key value store = (.thrown after, []) ∧
      after.live addr = map.abandoned := by
  unfold addAt
  rcases rehashAt_spec solid small live false with
    ⟨notNeeded, same⟩ | ⟨needed, ready, solidReady, pairs, -, ran⟩
  · refine ⟨store, ?_, ?_⟩
    · rw [Proc.bind_ran same]
      exact addRehashed_present solid live present value
    · rw [Map.abandoned, notNeeded]
      exact live
  · obtain ⟨old, new⟩ := live_rehashed live ready
    refine ⟨(store.push ready).put addr map.delref, ?_, ?_⟩
    · rw [Proc.bind_ran ran]
      exact addRehashed_present solidReady new (mt (Map.absent_congr pairs) present) value
    · rw [Map.abandoned, needed, if_pos rfl]
      exact old

/-- A search through a pointer to a map that is there. -/
theorem findAt_live (solid : Map.Solid hash map) (live : store.live addr = some map) (key : Str) :
    ∃ found, findAt hash addr key store = (.ok found store, []) ∧ map.find hash key = .ok found := by
  refine ⟨_, ?_, solid.valid.find_eq key⟩
  unfold findAt
  rw [Proc.bind_ran (load_live live), lift_ok (solid.valid.find_eq key)]
  rfl

theorem updateRehashed_present (solid : Map.Solid hash map) (live : store.live addr = some map)
    (present : ¬Map.Absent hash map key) (value : α) :
    ∃ after, updateRehashed noMaps hash key value addr store = (.ok addr after, []) := by
  obtain ⟨index, entry, held, equal⟩ := Map.not_absent present
  obtain ⟨ret, found, place⟩ := solid.valid.findEntry_present held equal
  have old : map.valueAt index = some entry.value := by
    rw [Map.valueAt, held.2]
    rfl
  have assigned : assignAt noMaps addr index value store =
      (.ok () (store.put addr (some (map.assigned index value))), []) := by
    unfold assignAt
    rw [Proc.bind_ran (load_live live), old]
    change (load addr >>= _) store = _
    rw [Proc.bind_ran (load_live live)]
    rfl
  refine ⟨store.put addr (some (map.assigned index value)), ?_⟩
  unfold updateRehashed
  rw [Proc.bind_ran (load_live live), lift_ok found, pure_bind, place]
  dsimp only
  rw [Proc.bind_ran assigned]
  rfl

/-- An update of a key that is there, through a pointer to a map that is there. -/
theorem updateAt_present (solid : Map.Solid hash map) (small : map.count ≤ Map.maxCount)
    (live : store.live addr = some map) (present : ¬Map.Absent hash map key) (value : α) :
    ∃ result after, updateAt noMaps hash addr key value store = (.ok result after, []) := by
  unfold updateAt
  rcases rehashAt_spec solid small live false with
    ⟨-, same⟩ | ⟨-, ready, solidReady, pairs, -, ran⟩
  · obtain ⟨after, updated⟩ := updateRehashed_present solid live present value
    exact ⟨addr, after, by rw [Proc.bind_ran same, updated]⟩
  · obtain ⟨after, updated⟩ := updateRehashed_present solidReady (live_rehashed live ready).2
      (mt (Map.absent_congr pairs) present) value
    exact ⟨_, after, by rw [Proc.bind_ran ran, updated]⟩

/-- What a failed `handlebars_map_add` owes its caller: the map as it was, with the same count of
references, and a pointer that later calls can use. -/
def AddLeaves (hash : StringHash) (store : Store α) (addr : Nat) (map : Map α) (key : Str)
    (value : α) : Prop :=
  ∃ after, addAt noMaps hash addr key value store = (.thrown after, []) ∧
    after.live addr = some map ∧
    (∀ other, ∃ found, findAt hash addr other after = (.ok found after, []) ∧
      map.find hash other = .ok found) ∧
    ∀ other value, ¬Map.Absent hash map other →
      ∃ result later, updateAt noMaps hash addr other value after = (.ok result later, [])

/-- A failed `handlebars_map_add` leaves its caller's map exactly if no rehash was called for or
the map is immortal. -/
theorem addLeaves_iff (solid : Map.Solid hash map) (small : map.count ≤ Map.maxCount)
    (live : store.live addr = some map) (present : ¬Map.Absent hash map key) (value : α) :
    AddLeaves hash store addr map key value ↔ map.Lasting := by
  obtain ⟨after, thrown, left⟩ := addAt_present solid small live present value
  rw [← Map.abandoned_eq_self_iff]
  constructor
  · rintro ⟨other, thrownToo, kept, -⟩
    rw [thrown] at thrownToo
    cases thrownToo
    exact left.symm.trans kept
  · intro lasting
    have kept : after.live addr = some map := left.trans lasting
    exact ⟨after, thrown, kept, findAt_live solid kept,
      fun other value there => updateAt_present solid small kept there value⟩

end Counted

end HandlebarsC
