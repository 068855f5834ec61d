import HandlebarsC.Cache.Collected
import HandlebarsC.Cache.LmdbUpkeep

/-!
What a reset and a collection leave of each of the three caches.
-/

namespace HandlebarsC

open Transition

namespace Simple

def addedKey : Operation → Option Str
  | .add tmpl .. => some tmpl
  | _ => none

/-- No key that `handlebars_string_eq` takes for `key` is added. -/
def NotAdded (hash : StringHash) (key : Str) (operations : List Operation) : Prop :=
  ∀ stored ∈ operations.filterMap addedKey, stringEq hash key stored = false

/-- After a reset with no module in use, the map is there and finds miss until an equal key is
added. -/
def ResetClears (env : Env) (world : World) : Prop :=
  world.held = [] → ∀ emptied operations last key, Step env world .reset emptied →
    Run (Guarded (Admitted env) (Step env)) emptied operations last →
      NotAdded env.hash key operations → last.lost = false ∧
        ∀ now, ∃ after, cacheFind env now last.cache key = some (none, after)

/-- A collection is defined, takes every entry that is too old, and any other only while it
and what is left are over the limits. -/
structure GcSound (env : Env) (cache : Cache) (now : Int) (after : Cache) : Prop where
  returns : cacheGc env now cache = some after
  old : ∀ entry ∈ cache.map, Expired cache now entry → entry ∉ after.map
  evicted : ∃ gone, Evicted cache now gone after.map

/-- No key of the map is equal to `key`. -/
def Absent (hash : StringHash) (key : Str) (cache : Cache) : Prop :=
  ∀ entry ∈ cache.map, stringEq hash key entry.1 = false

theorem Absent.find (absent : Absent env.hash key cache) (now : Int) :
    cacheFind env now cache key = some (none, { cache with misses := cache.misses + 1 }) := by
  have none : StrMap.find env.hash cache.map key = none := by
    cases found : StrMap.find env.hash cache.map key with
    | none => rfl
    | some ptr =>
      obtain ⟨stored, member, same⟩ := StrMap.find_some found
      have other := absent (stored, ptr) member
      rw [stringEq_symm same] at other
      cases other
  simp only [cacheFind, none]

theorem cacheFind_map (found : cacheFind env now cache tmpl = some (result, after)) :
    after.map = cache.map := by
  unfold cacheFind at found
  split at found
  · obtain ⟨module, -, same⟩ := Option.map_eq_some_iff.mp found
    cases same
    rfl
  · cases found
    rfl

theorem cacheGc_subset (env : SortEnv) (stored : Stored cache)
    (ran : cacheGc env.toEnv now cache = some after) : ∀ entry ∈ after.map, entry ∈ cache.map := by
  obtain ⟨other, same, -, collected⟩ := cacheGc_collected env now stored
  rw [ran] at same
  cases same
  obtain ⟨gone, evicted⟩ := collected.evicted
  exact fun entry member => evicted.perm.mem_iff.mp (List.mem_append_right gone member)

/-- An add brings in its own key at most. -/
theorem cacheAdd_subset (env : SortEnv) (stored : Stored cache)
    (ran : cacheAdd env.toEnv now cache tmpl ptr = some (result, after)) :
    ∀ entry ∈ after.map, entry ∈ cache.map ∨ entry.1 = tmpl := by
  unfold cacheAdd at ran
  obtain ⟨collected, gc, ran⟩ := Option.bind_eq_some_iff.mp ran
  have subset : ∀ entry ∈ collected.map, entry ∈ cache.map := by
    unfold collect at gc
    split at gc
    · exact cacheGc_subset env stored gc
    · cases gc
      exact fun entry member => member
  obtain ⟨module, -, ran⟩ := Option.map_eq_some_iff.mp ran
  dsimp only at ran
  intro entry member
  split at ran
  · cases ran
    exact .inl (subset entry member)
  · rename_i map added
    cases ran
    obtain ⟨-, rfl⟩ := StrMap.add_ok added
    rcases List.mem_append.mp member with old | new
    · exact .inl (subset entry old)
    · exact .inr (congrArg Prod.fst (List.mem_singleton.mp new))

theorem Absent.step (env : SortEnv) (stored : Stored world.cache)
    (absent : Absent env.hash key world.cache)
    (other : ∀ tmpl, addedKey operation = some tmpl → stringEq env.hash key tmpl = false)
    (taken : Step env.toEnv world operation next) : Absent env.hash key next.cache := by
  replace taken := perform_of_step taken
  unfold perform at taken
  cases operation with
  | find tmpl now =>
    obtain ⟨⟨result, cache⟩, found, taken⟩ := Option.bind_eq_some_iff.mp taken
    have map := cacheFind_map found
    have kept : Absent env.hash key cache := by
      unfold Absent
      rw [map]
      exact absent
    cases result with
    | none =>
      cases taken
      exact kept
    | some ptr =>
      obtain ⟨module, -, rfl⟩ := Option.map_eq_some_iff.mp taken
      exact kept
  | add tmpl module ptr now due =>
    dsimp only at taken
    by_cases used : (world.cache.heap ptr).isSome = true
    · rw [if_pos used] at taken
      cases taken
    · rw [if_neg used] at taken
      obtain ⟨⟨result, cache⟩, ran, rfl⟩ := Option.map_eq_some_iff.mp taken
      have fresh : world.cache.heap ptr = none := Option.not_isSome_iff_eq_none.mp used
      intro entry member
      rcases cacheAdd_subset env (stored_alloc stored fresh module) ran entry member with old | new
      · exact absent entry old
      · rw [new]
        exact other tmpl rfl
  | release ptr =>
    dsimp only at taken
    split at taken
    · cases taken
      exact absent
    · cases taken
  | gc now =>
    obtain ⟨cache, ran, rfl⟩ := Option.map_eq_some_iff.mp taken
    exact fun entry member => absent entry (cacheGc_subset env stored ran entry member)
  | reset =>
    cases taken
    exact fun entry member => absurd member List.not_mem_nil

theorem absent_run (env : SortEnv) (run : Run (Step env.toEnv) world operations last)
    (stored : Stored world.cache) (absent : Absent env.hash key world.cache)
    (unadded : NotAdded env.hash key operations) : Absent env.hash key last.cache := by
  induction run with
  | nil state => exact absent
  | cons first rest ih =>
    rename_i operation operations
    apply ih (stored_step env stored first)
    · refine absent.step env stored ?_ first
      intro tmpl adds
      exact unadded tmpl (List.mem_filterMap.mpr ⟨operation, List.mem_cons_self, adds⟩)
    · intro tmpl later
      obtain ⟨source, inside, adds⟩ := List.mem_filterMap.mp later
      exact unadded tmpl (List.mem_filterMap.mpr ⟨source, List.mem_cons_of_mem _ inside, adds⟩)

/-- Where all adds are admitted, the map stays. -/
theorem mapped_run (env : Env) (run : Run (Guarded (Admitted env) (Step env)) world operations last)
    (mapped : world.lost = false) : last.lost = false := by
  apply run.invariant (fun world => world.lost = false) ?_ mapped
  rintro state operation next mapped ⟨admitted, taken⟩
  exact mapped_step mapped admitted taken

theorem resetClears (env : SortEnv) (mapped : world.lost = false) :
    ResetClears env.toEnv world := by
  intro unused emptied operations last key reset run unadded
  have performed := perform_of_step reset
  cases performed
  have empty : Stored (cacheReset world.cache) := ⟨nofun, List.nodup_nil, rfl, rfl⟩
  have absent : Absent env.hash key (cacheReset world.cache) :=
    fun entry member => absurd member List.not_mem_nil
  refine ⟨mapped_run env.toEnv run mapped, fun now => ?_⟩
  exact ⟨_, (absent_run env run.unguarded empty absent unadded).find now⟩

/-- What is too old for the cache before a collection is too old for what it leaves. -/
theorem gcSound (env : SortEnv) (stored : Stored cache) (now : Int) :
    ∃ after, GcSound env.toEnv cache now after := by
  obtain ⟨after, ran, -, collected⟩ := cacheGc_collected env now stored
  refine ⟨after, ran, ?_, collected.evicted⟩
  obtain ⟨gone, kept, other, same, -, swept⟩ := cacheGc_swept env now stored
  rw [ran] at same
  cases same
  intro entry _ old member
  apply collected.fresh entry member
  unfold Expired stampOf
  rw [swept.maxAge, collected.kept entry member]
  exact old

end Simple

namespace Mmap

variable {hash : StringHash}

/-- No key that `handlebars_string_eq` takes for `key` is added. -/
def NotAdded (hash : StringHash) (key : Str) (operations : List Operation) : Prop :=
  ∀ stored ∈ operations.filterMap addedKey, stringEq hash key stored = false

/-- A find misses. In a table without slots it divides by zero. -/
structure Misses (hash : StringHash) (cache : Cache) (key : Str) (now : Int) : Prop where
  missed : ∀ result after, cacheFind hash now cache key = some (result, after) → result = .ok none
  returns : cache.tableCount ≠ 0 → (cacheFind hash now cache key).isSome

/-- After a reset with no module in use, finds miss until an equal key is added. -/
def ResetClears (hash : StringHash) (world : World) : Prop :=
  world.held = [] → ∀ emptied operations last key, Step hash world .reset emptied →
    Run (Step hash) emptied operations last → NotAdded hash key operations →
      ∀ now, Misses hash last.cache key now

/-- A key equal to none that was stored is missed, whatever lies in its slot. -/
theorem Slots.misses {world : World} (slots : Slots hash world)
    (absent : ∀ stored ∈ world.added, stringEq hash key stored.1 = false) (now : Int) :
    Misses hash world.cache key now := by
  have idle : ¬ world.cache.inReset = true := by simp [slots.idle]
  have missed : ∀ slot pointed, slotOf hash world.cache key = some slot →
      world.cache.table[slot]? = some pointed → cacheFind hash now world.cache key =
        some (.ok none, { world.cache with misses := world.cache.misses + 1 }) := by
    intro slot pointed slotFound pointer
    cases pointed with
    | none => simp only [cacheFind, if_neg idle, slotFound, pointer, Option.bind_some]
    | some entry =>
      obtain ⟨stored, original, keyAddr, data, sound⟩ := slots.sound slot entry pointer
      simp only [cacheFind, if_neg idle, slotFound, pointer, Option.bind_some, sound.readEntry,
        absent _ sound.added, Bool.not_false, if_true]
  constructor
  · intro result after found
    have defined := found
    simp only [cacheFind, if_neg idle] at defined
    obtain ⟨slot, slotFound, rest⟩ := Option.bind_eq_some_iff.mp defined
    obtain ⟨pointed, pointer, -⟩ := Option.bind_eq_some_iff.mp rest
    rw [missed slot pointed slotFound pointer] at found
    cases found
    rfl
  · intro nonempty
    have slotFound : slotOf hash world.cache key =
        some (hash key % world.cache.tableCount).toNat := if_neg nonempty
    have inside : (hash key % world.cache.tableCount).toNat < world.cache.table.length := by
      rw [slots.tableLength, UInt32.toNat_mod]
      exact Nat.mod_lt _ (Nat.pos_of_ne_zero fun zero => nonempty (UInt32.toNat_inj.mp zero))
    rw [missed _ _ slotFound (List.getElem?_eq_getElem inside)]
    rfl

/-- Whatever the finds of a run meet, the table is sound and no more modules are counted
than are in use. -/
theorem slots_run (run : Run (Step hash) world operations last) (slots : Slots hash world)
    (counted : world.cache.refcount ≤ world.held.length) :
    Slots hash last ∧ last.cache.refcount ≤ last.held.length := by
  apply run.invariant (fun world => Slots hash world ∧ world.cache.refcount ≤ world.held.length) ?_
    ⟨slots, counted⟩
  intro state operation next ⟨slots, counted⟩ taken
  obtain ⟨kept, count⟩ := slots.step taken
  exact ⟨kept, count counted⟩

theorem resetClears (slots : Slots hash world)
    (counted : world.cache.refcount ≤ world.held.length) : ResetClears hash world := by
  intro unused emptied operations last key reset run unadded now
  cases reset
  rw [unused] at counted
  have forgotten : world.addedAfterReset = [] := if_neg (not_lt.mpr counted)
  obtain ⟨kept, -⟩ := slots_run run slots.reset ((cacheReset_refcount _).trans_le (unused ▸ counted))
  apply kept.misses
  intro stored member
  rcases added_run run stored member with before | later
  · dsimp only at before
    rw [forgotten] at before
    cases before
  · exact unadded stored.1 later

end Mmap

/-- In every run of the simple cache in which no stored key is added to a map that is due for a
rehash, and in every run of the mmap cache, a reset with no module in use makes the finds after
it miss until an equal key is added. A collection of the simple cache takes what is
too old, and more only while over the limits; one of the mmap cache leaves everything to the
finds; one of the LMDB cache takes nothing that would be found and ends without an error. -/
theorem caches_upkept (env : Simple.SortEnv) (heap : Nat → Option Module) (maxAge : ℚ)
    (maxSize maxEntries : UInt64) (hash : StringHash) (data dataSize : Nat) (tableCount : UInt32)
    (lmdb : Lmdb.Env) (history : List Lmdb.Upkeep)
    (simpleRun : Run (Guarded (Simple.Admitted env.toEnv) (Simple.Step env.toEnv))
      ⟨Simple.openCache heap maxAge maxSize maxEntries, [], false⟩ simpleOperations simpleWorld)
    (mmapRun : Run (Mmap.Step hash)
      ⟨Mmap.openCache data dataSize tableCount maxAge, [], []⟩ mmapOperations mmapWorld) :
    simpleWorld.lost = false ∧ Simple.ResetClears env.toEnv simpleWorld ∧
      (∀ now, ∃ after, Simple.GcSound env.toEnv simpleWorld.cache now after) ∧
      Mmap.ResetClears hash mmapWorld ∧
      Mmap.Step hash mmapWorld .gc mmapWorld ∧
      ∀ now codes, Lmdb.GcSound lmdb
        (Lmdb.maintainAll lmdb (Lmdb.openCache maxAge) history) now codes := by
  have mapped := Simple.mapped_run env.toEnv simpleRun rfl
  have stored : Simple.Stored simpleWorld.cache := by
    apply simpleRun.unguarded.invariant (fun world => Simple.Stored world.cache) ?_
      ⟨nofun, List.nodup_nil, rfl, rfl⟩
    intro state operation next stored taken
    exact Simple.stored_step env stored taken
  have start := Mmap.inv_openCache hash data dataSize tableCount maxAge
  obtain ⟨slots, counted⟩ := Mmap.slots_run mmapRun start.table start.counted.le
  have unique := Lmdb.keysUnique_maintainAll lmdb maxAge history
  refine ⟨mapped, Simple.resetClears env mapped, Simple.gcSound env stored,
    Mmap.resetClears slots counted, rfl, ?_⟩
  intro now codes
  exact Lmdb.gcSound lmdb unique codes now

theorem Simple.released_run : ∃ world, Run (Guarded (Admitted insertionEnv.toEnv)
    (Step insertionEnv.toEnv)) oneEntry
    [.add (bytes "a") Mmap.freshModule 1 0 false, .add (bytes "bb") Mmap.freshModule 2 1 true,
      .find (bytes "a") 3, .release 1] world ∧ world.held = [] := by
  refine ⟨_, .cons ⟨?_, rfl⟩ (.cons ⟨?_, rfl⟩ (.cons ⟨trivial, rfl⟩ (.cons ⟨trivial, rfl⟩
    (.nil _)))), rfl⟩
  · intro due
    cases due
  · intro due cache collected
    cases collected
    rfl

theorem Mmap.released_run : ∃ world, Run (Step fun _ => 1) ⟨openCache 4096 1024 4 (-1), [], []⟩
    [.add (bytes "a") freshModule, .find (bytes "a") 5, .release 4128] world ∧ world.held = [] :=
  ⟨_, .cons rfl (.cons rfl (.cons rfl (.nil _))), rfl⟩

theorem caches_upkept_runs : ∃ simpleWorld mmapWorld,
    Run (Guarded (Simple.Admitted Simple.insertionEnv.toEnv)
        (Simple.Step Simple.insertionEnv.toEnv)) Simple.oneEntry
      [.add (bytes "a") Mmap.freshModule 1 0 false, .add (bytes "bb") Mmap.freshModule 2 1 true,
        .find (bytes "a") 3, .release 1] simpleWorld ∧
    Run (Mmap.Step fun _ => 1) ⟨Mmap.openCache 4096 1024 4 (-1), [], []⟩
      [.add (bytes "a") Mmap.freshModule, .find (bytes "a") 5, .release 4128] mmapWorld ∧
    simpleWorld.held = [] ∧ mmapWorld.held = [] ∧
    Simple.ResetClears Simple.insertionEnv.toEnv simpleWorld ∧
    Mmap.ResetClears (fun _ => 1) mmapWorld := by
  obtain ⟨simpleWorld, simpleRun, simpleHeld⟩ := Simple.released_run
  obtain ⟨mmapWorld, mmapRun, mmapHeld⟩ := Mmap.released_run
  obtain ⟨-, simple, -, mmap, -⟩ := caches_upkept Simple.insertionEnv (fun _ => none) (-1) 0 1
    (fun _ => 1) 4096 1024 4 ⟨fun _ => 0, 511, fun _ => 0, []⟩ [] simpleRun mmapRun
  exact ⟨simpleWorld, mmapWorld, simpleRun, mmapRun, simpleHeld, mmapHeld, simple, mmap⟩

/-- A cache that may keep one module holds two, of which neither is ever too old: a collection
takes one that a find at the same time returns. -/
theorem gc_takes_found :
    ¬ ∀ (env : Simple.SortEnv) (heap : Nat → Option Module) (maxAge : ℚ)
      (maxSize maxEntries : UInt64) (operations : List Simple.Operation) (world : Simple.World)
      (now : Int) (after : Simple.Cache) (tmpl : Str) (ptr : Nat),
      Run (Simple.Step env.toEnv) ⟨Simple.openCache heap maxAge maxSize maxEntries, [], false⟩
        operations world →
      Simple.cacheGc env.toEnv now world.cache = some after →
      (Simple.cacheFind env.toEnv now world.cache tmpl).map Prod.fst = some (some ptr) →
      (Simple.cacheFind env.toEnv now after tmpl).map Prod.fst = some (some ptr) := by
  intro always
  have run : ∃ world, Run (Simple.Step Simple.insertionEnv.toEnv) Simple.oneEntry
      [.add (bytes "a") Mmap.freshModule 1 0 false, .add (bytes "bb") Mmap.freshModule 2 1 false]
      world ∧
      (Simple.cacheFind Simple.insertionEnv.toEnv 1 world.cache (bytes "a")).map Prod.fst =
        some (some 1) ∧
      ∃ after, Simple.cacheGc Simple.insertionEnv.toEnv 1 world.cache = some after ∧
        (Simple.cacheFind Simple.insertionEnv.toEnv 1 after (bytes "a")).map Prod.fst =
          some none :=
    ⟨_, .cons rfl (.cons rfl (.nil _)), rfl, _, rfl, rfl⟩
  obtain ⟨world, run, found, after, collected, missed⟩ := run
  have kept := always _ _ _ _ _ _ _ _ _ _ _ run collected found
  rw [missed] at kept
  cases kept

end HandlebarsC
