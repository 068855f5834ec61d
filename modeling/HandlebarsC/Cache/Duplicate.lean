import HandlebarsC.Cache.Simple
import HandlebarsC.Map.Duplicate

/-!
Storing a template that is stored already: the simple cache and the map behind it.
-/

namespace HandlebarsC

open Effect

namespace Simple

variable {env : Env} {cache after : Cache} {store : Store Nat} {addr ptr : Nat} {table : Map Nat}
  {tmpl : Str}

/-- What a failed `cache_add` owes: the entries and the statistics as they were and, where it
goes to the map at once, the map that the cache points to. -/
structure AddLeaves (env : Env) (now : Int) (cache : Cache) (tmpl : Str) (ptr : Nat)
    (store : Store Nat) (addr : Nat) (table : Map Nat) : Prop where
  unchanged : ∃ error after, cacheAdd env now cache tmpl ptr = some (.error error, after) ∧
    after.map = cache.map ∧ after.currentEntries = cache.currentEntries ∧
    after.currentSize = cache.currentSize ∧ after.hits = cache.hits ∧ after.misses = cache.misses
  kept : shouldGc cache = false → Counted.AddLeaves env.hash store addr table tmpl ptr

theorem length_remove (hash : StringHash) (map : StrMap Nat) (key : Str) :
    (StrMap.remove hash map key).length ≤ map.length :=
  List.Sublist.length_le List.eraseP_sublist

theorem length_removeKey (key : Str) : (removeKey env cache key).map.length ≤ cache.map.length := by
  unfold removeKey
  split
  · exact length_remove env.hash cache.map key
  · exact Nat.le_refl _

theorem length_removeKeys (removed : List (Str × Nat)) :
    (removed.foldl (fun cache entry => removeKey env cache entry.1) cache).map.length ≤
      cache.map.length := by
  induction removed generalizing cache with
  | nil => exact Nat.le_refl _
  | cons entry rest ih => exact Nat.le_trans ih (length_removeKey entry.1)

/-- Removing a key that is there shortens the map. -/
theorem length_removeKey_lt (present : (StrMap.find env.hash cache.map key).isSome = true) :
    (removeKey env cache key).map.length < cache.map.length := by
  obtain ⟨stored, found⟩ := Option.isSome_iff_exists.mp present
  obtain ⟨held, member, same⟩ := StrMap.find_some found
  unfold removeKey
  rw [found]
  change (StrMap.remove env.hash cache.map key).length < _
  rw [StrMap.remove, List.length_eraseP_of_mem member same]
  have positive := List.length_pos_of_mem member
  omega

theorem find_isSome_of_mem {hash : StringHash} {map : StrMap Nat} {entry : Str × Nat}
    (member : entry ∈ map) : (StrMap.find hash map entry.1).isSome = true := by
  rw [StrMap.find, Option.isSome_map, List.find?_isSome]
  exact ⟨entry, member, stringEq_refl hash entry.1⟩

/-- A collection that is called for takes an entry at least. -/
theorem length_cacheGc (due : shouldGc cache = true) (some_ : cache.map ≠ [])
    (taken : cacheGc env now cache = some after) : after.map.length < cache.map.length := by
  rw [cacheGc] at taken
  obtain ⟨⟨removed, middle⟩, success, same⟩ := Option.map_eq_some_iff.mp taken
  cases same
  obtain ⟨map, -, inside⟩ := evict_frame success
  have length : (sortMap env cache).map.length = cache.map.length :=
    (env.qsort_perm _ _).length_eq
  obtain ⟨entry, rest, row⟩ : ∃ entry rest, (sortMap env cache).map = entry :: rest := by
    refine List.exists_cons_of_length_pos ?_
    rw [length]
    exact List.length_pos_iff.mpr some_
  rw [row] at success
  obtain ⟨key, place⟩ := entry
  rw [evict] at success
  obtain ⟨module, -, success⟩ := Option.bind_eq_some_iff.mp success
  have goes : shouldGcEntry (sortMap env cache) module now = true := by
    unfold shouldGcEntry
    split
    · rfl
    · exact due
  rw [if_pos goes] at success
  obtain ⟨⟨later, final⟩, -, same⟩ := Option.map_eq_some_iff.mp success
  cases same
  have present : (StrMap.find env.hash middle.map key).isSome = true := by
    rw [map]
    exact find_isSome_of_mem (inside (key, place) List.mem_cons_self)
  have first := length_removeKey_lt present
  rw [map, length] at first
  exact Nat.lt_of_le_of_lt (length_removeKeys later) first

/-- A collection changes the entries, also where it makes the template new to the cache. -/
theorem cacheAdd_collected (due : shouldGc cache = true)
    (stored : (StrMap.find env.hash cache.map tmpl).isSome = true)
    (taken : cacheAdd env now cache tmpl ptr = some (.error error, after)) :
    after.map ≠ cache.map := by
  rw [cacheAdd, collect, if_pos due] at taken
  obtain ⟨collected, gc, taken⟩ := Option.bind_eq_some_iff.mp taken
  obtain ⟨module, -, taken⟩ := Option.map_eq_some_iff.mp taken
  have some_ : cache.map ≠ [] := by
    intro empty
    rw [empty] at stored
    cases stored
  have less := length_cacheGc due some_ gc
  have same : after.map = collected.map := by
    dsimp only at taken
    split at taken
    · cases taken
      rfl
    · cases taken
  intro equal
  rw [← equal, same] at less
  exact Nat.lt_irrefl _ less

/-- Where nothing is collected, the entries and the statistics stay. -/
theorem cacheAdd_stored (calm : shouldGc cache = false)
    (stored : (StrMap.find env.hash cache.map tmpl).isSome = true)
    (allocated : (cache.heap ptr).isSome = true) :
    ∃ error after, cacheAdd env now cache tmpl ptr = some (.error error, after) ∧
      after.map = cache.map ∧ after.currentEntries = cache.currentEntries ∧
      after.currentSize = cache.currentSize ∧ after.hits = cache.hits ∧
      after.misses = cache.misses := by
  obtain ⟨module, there⟩ := Option.isSome_iff_exists.mp allocated
  obtain ⟨old, found⟩ := Option.isSome_iff_exists.mp stored
  have notDue : ¬shouldGc cache = true := by
    rw [calm]
    exact Bool.false_ne_true
  have refused : StrMap.add env.hash cache.map tmpl ptr =
      .error ⟨.error, bytes "Failed to add to hash table", LocInfo.zero⟩ := by
    rw [StrMap.add, found]
  have taken : cacheAdd env now cache tmpl ptr =
      some (.error ⟨.error, bytes "Failed to add to hash table", LocInfo.zero⟩,
        alloc cache ptr { module with ts := now }) := by
    rw [cacheAdd, collect, if_neg notDue]
    simp only [Option.bind_some, there, Option.map_some, alloc, refused]
  exact ⟨_, _, taken, rfl, rfl, rfl, rfl, rfl⟩

theorem present_of_find (pairs : table.pairs = cache.map)
    (stored : (StrMap.find env.hash cache.map tmpl).isSome = true) :
    ¬Map.Absent env.hash table tmpl := by
  intro absent
  obtain ⟨old, found⟩ := Option.isSome_iff_exists.mp stored
  obtain ⟨key, member, same⟩ := StrMap.find_some found
  rw [← pairs] at member
  rw [Map.absent_iff_pairs.mp absent (key, old) member] at same
  cases same

theorem addLeaves_iff (now : Int) (solid : Map.Solid env.hash table)
    (small : table.count ≤ Map.maxCount) (live : store.live addr = some table)
    (pairs : table.pairs = cache.map)
    (stored : (StrMap.find env.hash cache.map tmpl).isSome = true)
    (allocated : (cache.heap ptr).isSome = true) :
    AddLeaves env now cache tmpl ptr store addr table ↔
      shouldGc cache = false ∧ table.Lasting := by
  have leaves := Counted.addLeaves_iff solid small live (present_of_find pairs stored) ptr
  constructor
  · rintro ⟨⟨error, after, taken, same, -⟩, kept⟩
    cases due : shouldGc cache with
    | true => exact absurd same (cacheAdd_collected due stored taken)
    | false => exact ⟨rfl, leaves.mp (kept due)⟩
  · rintro ⟨calm, lasting⟩
    exact ⟨cacheAdd_stored calm stored allocated, fun _ => leaves.mpr lasting⟩

end Simple

/-- In every run of a map whose compactions lose nothing, to add a key that is there leaves the
caller's map as it was if and only if no rehash is called for or the map is immortal; and storing
a stored template leaves the simple cache as it was if and only if, besides, no collection is
due. -/
theorem duplicate_add_iff {hash : StringHash} {sortR : Map.SortR α} {first : Map α}
    (permutes : ∀ compare row, (sortR compare row).Perm row)
    (created : Map.ctor capacity = .ok first) (env : Simple.Env) {sortPtr : Map.SortR Nat}
    {firstTable : Map Nat} (permutesPtr : ∀ compare row, (sortPtr compare row).Perm row)
    (createdTable : Map.ctor 32 = .ok firstTable) :
    (∀ (events : List (Map.Event α β)) last,
      Transition.Run (Transition.Guarded (Map.AtPointer Map.Event.Whole) (Map.EventStep hash sortR))
        (some first) events (some last) → last.count ≤ Map.maxCount →
      ∀ (store : Store α) addr key value, store.live addr = some last →
        ¬Map.Absent hash last key →
        (Counted.AddLeaves hash store addr last key value ↔ last.Lasting)) ∧
    ∀ (events : List (Map.Event Nat β)) table,
      Transition.Run (Transition.Guarded (Map.AtPointer Map.Event.Whole)
        (Map.EventStep env.hash sortPtr)) (some firstTable) events (some table) →
      table.count ≤ Map.maxCount →
      ∀ (now : Int) (cache : Simple.Cache) (store : Store Nat) addr tmpl ptr,
        store.live addr = some table → table.pairs = cache.map →
        (StrMap.find env.hash cache.map tmpl).isSome = true → (cache.heap ptr).isSome = true →
        (Simple.AddLeaves env now cache tmpl ptr store addr table ↔
          Simple.shouldGc cache = false ∧ table.Lasting) := by
  constructor
  · intro events last run small store addr key value live present
    exact Counted.addLeaves_iff (.run permutes created run) small live present value
  · intro events table run small now cache store addr tmpl ptr live pairs stored allocated
    exact Simple.addLeaves_iff now (.run permutesPtr createdTable run) small live pairs stored
      allocated

/-- A map of one entry in a vector of so many places. -/
def oneEntry (places : Nat) : Map Nat :=
  ⟨1, 1, false, 0, some ⟨bytes "a", 1, 0⟩ :: List.replicate places none,
    .entry 0 :: List.replicate (if places = 0 then 4 else 10) .null⟩

def storeOf (map : Map Nat) : Store Nat := ⟨[some map], .empty, .empty⟩

/-- A map with room is still there after the failed call. -/
theorem duplicate_add_room :
    Counted.AddLeaves (fun _ => 0) (storeOf (oneEntry 3)) 0 (oneEntry 3) (bytes "a") 2 := by
  have permutes : ∀ (compare : MapEntry Nat → MapEntry Nat → Int) (row : List (MapEntry Nat)),
      row.Perm row := fun _ row => .refl row
  have created : Map.ctor (α := Nat) 4 = .ok
    ⟨0, 0, false, 0, [none, none, none, none], List.replicate 11 .null⟩ := rfl
  obtain ⟨table, createdTable, -⟩ := Map.Intact.ctor (α := Nat) (fun _ => 0)
    (show 32 ≤ Map.maxCapacity by decide)
  have run : Transition.Run (Transition.Guarded (Map.AtPointer Map.Event.Whole)
      (Map.EventStep (fun _ => 0) fun _ row => row))
      (some ⟨0, 0, false, 0, [none, none, none, none], List.replicate 11 .null⟩)
      [(.op (.add (bytes "a") 1) : Map.Event Nat Unit)] (some (oneEntry 3)) := by
    refine .cons ⟨?_, .returned trivial rfl⟩ (.nil _)
    rintro map ⟨⟩
    exact ⟨by decide, trivial⟩
  have present : ¬Map.Absent (fun _ => 0) (oneEntry 3) (bytes "a") := by
    intro absent
    have apart := absent 0 ⟨bytes "a", 1, 0⟩ ⟨Nat.zero_lt_one, rfl⟩
    cases apart
  exact ((duplicate_add_iff permutes created ⟨fun _ => 0, fun _ map => map, fun _ map => .refl map⟩
    permutes createdTable).1 _ _ run (by decide) (storeOf (oneEntry 3)) 0 (bytes "a") 2 rfl
    present).mpr (.inr (.inr ⟨by decide, by decide, by decide⟩))

/-- A full map that its caller holds without a reference is freed by the failed call. -/
theorem duplicate_add_full :
    Transition.Run (Map.EventStep (fun _ => 0) fun _ row => row)
      (some ⟨0, 0, false, 0, [none], List.replicate 5 .null⟩)
      [(.op (.add (bytes "a") 1) : Map.Event Nat Unit)] (some (oneEntry 0)) ∧
    ¬Counted.AddLeaves (fun _ => 0) (storeOf (oneEntry 0)) 0 (oneEntry 0) (bytes "a") 2 := by
  refine ⟨.cons (.returned trivial rfl) (.nil _), ?_⟩
  rintro ⟨after, thrown, kept, -⟩
  have freed : Outcome.Meets (fun _ _ => False) (fun after => after.live 0 = none)
      (Counted.addAt Counted.noMaps (fun _ => 0) 0 (bytes "a") 2 (storeOf (oneEntry 0))).1 := rfl
  rw [thrown] at freed
  cases kept.symm.trans freed

end HandlebarsC
