import HandlebarsC.Cache.MmapInvariant

/-!
The counters of the mmap cache, and what a find may return.
-/

namespace HandlebarsC.Mmap

open Serializer Transition

variable {hash : StringHash} {world next : World}

/-- One operation as a relation between worlds. -/
def Step (hash : StringHash) (world : World) (operation : Operation) (next : World) : Prop :=
  step hash world operation = some next

/-- The operation meets nothing stale and does not run out of room between the
module and its table entry. -/
def Steady (hash : StringHash) (world : World) : Operation → Prop
  | .find key now => staleHit hash world.cache key now = false
  | .add key module => entryOverflow hash world.cache key module = false
  | _ => True

theorem Steady.calm (steady : Steady hash world operation) : Calm hash world operation := by
  cases operation with
  | find key now => exact steady
  | _ => trivial

/-- The counters agree with what they count. -/
structure Consistent (world : World) : Prop where
  refcount : world.cache.refcount = world.held.length
  nonneg : 0 ≤ world.cache.refcount
  tableEntries : world.cache.tableEntries.toNat = world.cache.table.countP (·.isSome)

/-- What a find may return: the copy of a module stored under this very key, of the
running version and younger than the cache's maximum age. -/
def FindSound (world : World) (key : Str) (now : Int) (next : World) : Prop :=
  ∀ addr module, next.held = (addr, module) :: world.held →
    ∃ original, (key, original) ∈ world.added ∧ module = patchPointers original addr ∧
      original.version = handlebarsVersion ∧
      ¬ (0 ≤ world.cache.maxAge ∧ world.cache.maxAge ≤ ((now - original.ts : Int) : ℚ))

def addedKey : Operation → Option Str
  | .add key _ => some key
  | _ => none

/-- Different keys, `key` among them, differ for `handlebars_string_eq` too. -/
def KeysApart (hash : StringHash) (key : Str) (operations : List Operation) : Prop :=
  ∀ stored ∈ operations.filterMap addedKey, stringEq hash key stored = true → key = stored

/-! ### Counting slots -/

def Counted (cache : Cache) : Prop :=
  cache.tableEntries.toNat = cache.table.countP (·.isSome)

theorem counted_reset (cache : Cache) (counted : Counted cache) : Counted (cacheReset cache) := by
  unfold cacheReset
  split
  · exact counted
  · unfold Counted
    simp [List.countP_replicate]

/-- Filling an empty slot is counted once, and the count cannot wrap. -/
theorem counted_set {table : List (Option Nat)} {entries count : UInt32} {slot addr : Nat}
    (counted : entries.toNat = table.countP (·.isSome)) (length : table.length = count.toNat)
    (vacant : table[slot]? = some none) :
    (entries + 1).toNat = (table.set slot (some addr)).countP (·.isSome) := by
  obtain ⟨bound, empty⟩ := List.getElem?_eq_some_iff.mp vacant
  have grown : (table.set slot (some addr)).countP (·.isSome) = table.countP (·.isSome) + 1 := by
    rw [List.countP_set bound, empty]
    simp
  have room : table.countP (·.isSome) < table.length := by
    have less := List.countP_le_length (p := fun pointer => pointer.isSome)
      (l := table.set slot (some addr))
    rw [grown, List.length_set] at less
    exact less
  have small := count.toNat_lt
  rw [grown, UInt32.toNat_add, counted, UInt32.toNat_one]
  omega

theorem Counted.step (counted : Counted world.cache) (inv : Inv hash world)
    (steady : Steady hash world operation) (taken : step hash world operation = some next) :
    Counted next.cache := by
  cases operation with
  | find key now =>
    rcases find_outcome inv.table steady taken with misses | ⟨sound, same, fresh⟩
    · exact counted
    · exact counted
  | add key module =>
    rcases add_outcome inv.table taken with collisions | ⟨full, holds, frame⟩ |
      ⟨pointer, slotFound, room, copied⟩
    · exact counted
    · apply counted_reset
      obtain ⟨_, _, rfl⟩ := frame
      exact counted
    · rename_i slot keyAddr dataAddr cache
      obtain ⟨after, newPointer, set, frame, -, -, filled⟩ :=
        tableSet_spec cache slot keyAddr dataAddr
      obtain ⟨_, _, copiedFrame⟩ := copied.frame
      have fit : cache.dataLength + alignSize (sizeofTableEntry + 1) < cache.dataSize := by
        by_contra overflow
        have overflows : entryOverflow hash world.cache key module = true := by
          have size : cache.dataSize = world.cache.dataSize := by rw [copiedFrame]
          have length := copied.length
          simp only [entryOverflow, vacant_of_pointer slotFound pointer, room, Bool.true_and,
            decide_eq_true_eq]
          omega
        exact absurd steady (by simp [Steady, overflows])
      cases newPointer with
      | none => exact absurd rfl (filled fit)
      | some addr =>
        obtain ⟨_, _, rfl⟩ := frame
        rw [set]
        have entries : cache.tableEntries = world.cache.tableEntries := by rw [copiedFrame]
        have table : cache.table = world.cache.table := by rw [copiedFrame]
        unfold Counted
        dsimp only
        rw [entries, table]
        exact counted_set counted inv.tableLength pointer
  | release addr =>
    simp only [Mmap.step] at taken
    split at taken
    · cases taken
      exact counted
    · cases taken
  | reset =>
    cases taken
    exact counted_reset _ counted
  | gc =>
    cases taken
    exact counted

/-! ### Modules stored -/

theorem added_step (taken : step hash world operation = some next) :
    ∀ stored ∈ next.added, stored ∈ world.added ∨ addedKey operation = some stored.1 := by
  intro stored member
  cases operation with
  | find key now =>
    simp only [step] at taken
    obtain ⟨⟨result, cache⟩, -, rest⟩ := Option.bind_eq_some_iff.mp taken
    dsimp only at rest
    split at rest
    · obtain ⟨module, -, rfl⟩ := Option.map_eq_some_iff.mp rest
      exact .inl member
    · cases rest
      exact .inl member
  | add key module =>
    simp only [step] at taken
    obtain ⟨cache, -, rfl⟩ := Option.map_eq_some_iff.mp taken
    dsimp only at member
    split at member
    · exact .inl member
    · split at member
      · rcases List.mem_cons.mp member with rfl | earlier
        · exact .inr rfl
        · exact .inl earlier
      · unfold World.addedAfterReset at member
        split at member
        · exact .inl member
        · cases member
  | release addr =>
    simp only [step] at taken
    split at taken
    · cases taken
      exact .inl member
    · cases taken
  | reset =>
    cases taken
    simp only [World.addedAfterReset] at member
    split at member
    · exact .inl member
    · cases member
  | gc =>
    cases taken
    exact .inl member

theorem added_run (run : Run (Step hash) world operations last) :
    ∀ stored ∈ last.added, stored ∈ world.added ∨ stored.1 ∈ operations.filterMap addedKey := by
  induction run with
  | nil state => exact fun stored member => .inl member
  | cons first rest ih =>
    rename_i operation operations
    intro stored member
    rcases ih stored member with earlier | later
    · rcases added_step first stored earlier with before | here
      · exact .inl before
      · exact .inr (List.mem_filterMap.mpr ⟨operation, List.mem_cons_self, here⟩)
    · obtain ⟨source, inside, key⟩ := List.mem_filterMap.mp later
      exact .inr (List.mem_filterMap.mpr ⟨source, List.mem_cons_of_mem _ inside, key⟩)

theorem findSound_of_outcome (outcome : FindOutcome hash world key now next)
    (apart : ∀ stored ∈ world.added, stringEq hash key stored.1 = true → key = stored.1) :
    FindSound world key now next := by
  intro addr module found
  cases outcome with
  | miss misses =>
    have shorter := congrArg List.length found
    simp at shorter
  | hit sound same fresh =>
    rename_i slot entry keyAddr data stored original
    simp only [List.cons.injEq, Prod.mk.injEq, and_true] at found
    obtain ⟨rfl, rfl⟩ := found
    have equal := apart _ sound.added same
    have contents := normalizePointers_contents original data
    simp only [stale, Bool.or_eq_false_iff, bne_eq_false_iff_eq, Bool.and_eq_false_iff,
      decide_eq_false_iff_not, patchPointers, contents.version, contents.ts] at fresh
    refine ⟨original, ?_, rfl, fresh.1, ?_⟩
    · rw [equal]
      exact sound.added
    · rintro ⟨positive, reached⟩
      rcases fresh.2 with negative | young
      · exact negative positive
      · exact young reached

/-- In every run whose finds meet nothing stale and whose adds do not run out of room
between module and entry, the counters are right and finds are sound. -/
theorem counts_run (data dataSize : Nat) (tableCount : UInt32) (maxAge : ℚ)
    (run : Run (Guarded (Steady hash) (Step hash)) ⟨openCache data dataSize tableCount maxAge, [], []⟩
      operations world) :
    Consistent world ∧
      ∀ key now next, KeysApart hash key operations → Steady hash world (.find key now) →
        Step hash world (.find key now) next → FindSound world key now next := by
  have invariant : Inv hash world ∧ Counted world.cache := by
    refine run.invariant (fun world => Inv hash world ∧ Counted world.cache) ?_
      ⟨inv_openCache hash data dataSize tableCount maxAge, ?_⟩
    · rintro state operation after ⟨inv, counted⟩ ⟨steady, taken⟩
      exact ⟨inv.step steady.calm taken, counted.step inv steady taken⟩
    · simp [Counted, openCache, List.countP_replicate]
  obtain ⟨inv, counted⟩ := invariant
  refine ⟨⟨inv.counted, ?_, counted⟩, ?_⟩
  · rw [inv.counted]
    omega
  · intro key now after apart steady taken
    apply findSound_of_outcome (find_outcome inv.table steady taken)
    intro stored member same
    rcases added_run run.unguarded stored member with impossible | key
    · cases impossible
    · exact apart _ key same

/-- A module of the running version, made at time 0. -/
def freshModule : Module :=
  { hash := 0, version := handlebarsVersion, addr := 0, size := 96, ts := 0, flags := 0
    programCount := 0, programsAddr := 96, programs := [], opcodeCount := 0, opcodesAddr := 96
    opcodes := [], dataOffset := 0 }

/-- A cache of four slots whose modules expire after ten seconds. -/
def smallCache : World :=
  ⟨openCache 4096 1024 4 10, [], []⟩

theorem steady_run : ∃ world, Run (Guarded (Steady fun _ => 1) (Step fun _ => 1)) smallCache
    [.add (bytes "a") freshModule, .find (bytes "a") 5] world :=
  ⟨_, .cons ⟨rfl, rfl⟩ (.cons ⟨rfl, rfl⟩ (.nil _))⟩

theorem counts_run_find : ∃ world, Run (Guarded (Steady fun _ => 1) (Step fun _ => 1)) smallCache
    [.add (bytes "a") freshModule, .find (bytes "a") 5] world ∧ Consistent world := by
  obtain ⟨world, run⟩ := steady_run
  exact ⟨world, run, (counts_run 4096 1024 4 10 run).1⟩

/-- A find of an expired module returns it uncounted: one module is in use and the
reference count is zero. -/
theorem expired_find_uncounted :
    ¬ ∀ (hash : StringHash) (data dataSize : Nat) (tableCount : UInt32) (maxAge : ℚ)
      (operations : List Operation) (world : World),
      Run (Step hash) ⟨openCache data dataSize tableCount maxAge, [], []⟩ operations world →
        Consistent world := by
  intro always
  have run : ∃ world, Run (Step fun _ => 1) smallCache
      [.add (bytes "a") freshModule, .find (bytes "a") 20] world ∧
        world.cache.refcount = 0 ∧ world.held.length = 1 :=
    ⟨_, .cons rfl (.cons rfl (.nil _)), rfl, rfl⟩
  obtain ⟨world, run, refcount, held⟩ := run
  have consistent := always _ _ _ _ _ _ _ run
  have same := consistent.refcount
  rw [refcount, held] at same
  cases same

end HandlebarsC.Mmap
