import HandlebarsC.Foundation.Run
import HandlebarsC.Cache.Mmap

namespace HandlebarsC.Mmap

open Serializer

variable {hash : StringHash} {world next : World} {slot entry keyAddr data : Nat} {stored : Str}
  {original : Module}

/-! ### Memory -/

/-- Every byte of the block was last written with it, and it lies below the mark
where the next copy goes. -/
structure Live (cache : Cache) (block : Block) : Prop where
  newest : ∀ position, block.covers position = true →
    cache.memory.find? (·.covers position) = some block
  nonempty : 0 < block.size
  below : block.addr + block.size ≤ cache.data + cache.dataLength

/-- The content lies at the address, untouched since it was written there. -/
def Holds (cache : Cache) (addr : Nat) (content : Content) : Prop :=
  ∃ size, Live cache ⟨addr, size, content⟩

theorem Holds.load (holds : Holds cache addr content) : load cache addr = some content := by
  obtain ⟨size, live⟩ := holds
  have nonempty := live.nonempty
  have first : cache.memory.find? (·.covers addr) = some ⟨addr, size, content⟩ := by
    apply live.newest
    simp only [Block.covers, Bool.and_eq_true, decide_eq_true_eq]
    dsimp only at nonempty
    omega
  unfold Mmap.load
  rw [first]
  exact if_pos rfl

theorem Holds.of_memory (holds : Holds cache addr content)
    (memory : after.memory = cache.memory) (data : after.data = cache.data)
    (length : after.dataLength = cache.dataLength) : Holds after addr content := by
  obtain ⟨size, live⟩ := holds
  refine ⟨size, ?_, live.nonempty, ?_⟩
  · rw [memory]
    exact live.newest
  · rw [data, length]
    exact live.below

theorem alignSize_pos (size : Nat) : 0 < alignSize (size + 1) := by
  have room : size + 1 ≤ alignSize (size + 1) := by
    simp only [alignSize]
    split <;> omega
  omega

/-- A copy that fits lies above everything that was live. -/
theorem append_fits (content : Nat → Content)
    (room : cache.dataLength + alignSize (size + 1) < cache.dataSize) :
    append cache content size =
      (some (cache.data + cache.dataLength),
        { cache with
          dataLength := cache.dataLength + alignSize (size + 1)
          memory := ⟨cache.data + cache.dataLength, alignSize (size + 1),
            content (cache.data + cache.dataLength)⟩ :: cache.memory }) := by
  unfold append
  simp only [ge_iff_le]
  rw [if_neg (Nat.not_le.mpr room)]

theorem append_full (content : Nat → Content)
    (full : ¬ cache.dataLength + alignSize (size + 1) < cache.dataSize) :
    append cache content size = (none, cache) := by
  unfold append
  simp only [ge_iff_le]
  rw [if_pos (Nat.not_lt.mp full)]

theorem Holds.append (holds : Holds cache addr old) (content : Nat → Content) (size : Nat) :
    Holds (append cache content size).2 addr old := by
  by_cases room : cache.dataLength + alignSize (size + 1) < cache.dataSize
  · obtain ⟨oldSize, live⟩ := holds
    have below := live.below
    rw [append_fits content room]
    refine ⟨oldSize, ?_, live.nonempty, ?_⟩
    · intro position covered
      have apart : Block.covers ⟨cache.data + cache.dataLength, alignSize (size + 1),
          content (cache.data + cache.dataLength)⟩ position = false := by
        simp only [Block.covers, Bool.and_eq_true, decide_eq_true_eq] at covered
        simp only [Block.covers, Bool.and_eq_false_iff, decide_eq_false_iff_not]
        dsimp only at below
        omega
      rw [List.find?_cons_of_neg (by simp [apart])]
      exact live.newest position covered
    · dsimp only at below ⊢
      omega
  · rw [append_full content room]
    exact holds

theorem append_holds (content : Nat → Content)
    (room : cache.dataLength + alignSize (size + 1) < cache.dataSize) :
    Holds (append cache content size).2 (cache.data + cache.dataLength)
      (content (cache.data + cache.dataLength)) := by
  rw [append_fits content room]
  refine ⟨alignSize (size + 1), ?_, alignSize_pos size, ?_⟩
  · intro position covered
    exact List.find?_cons_of_pos covered
  · dsimp only
    omega

/-- Only the data segment differs. -/
def SegmentFrame (cache after : Cache) : Prop :=
  ∃ length memory, after = { cache with dataLength := length, memory := memory }

theorem SegmentFrame.trans (first : SegmentFrame cache middle) (second : SegmentFrame middle after) :
    SegmentFrame cache after := by
  obtain ⟨_, _, rfl⟩ := first
  obtain ⟨length, memory, rfl⟩ := second
  exact ⟨length, memory, rfl⟩

/-- `append` with room to spare. -/
structure Appended (cache : Cache) (addr : Nat) (content : Content) (size : Nat) (after : Cache) :
    Prop where
  length : after.dataLength = cache.dataLength + alignSize (size + 1)
  holds : ∀ addr content, Holds cache addr content → Holds after addr content
  copy : Holds after addr content
  frame : SegmentFrame cache after

theorem append_spec (content : Nat → Content)
    (room : cache.dataLength + alignSize (size + 1) < cache.dataSize) :
    ∃ addr after, append cache content size = (some addr, after) ∧
      Appended cache addr (content addr) size after := by
  refine ⟨_, _, append_fits content room, rfl, ?_, ?_, _, _, rfl⟩
  · intro addr old holds
    have kept := holds.append content size
    rwa [append_fits content room] at kept
  · have copy := append_holds content room
    rwa [append_fits content room] at copy

/-! ### The invariant -/

/-- What a slot of the table stands for: a copied key with a copied module that was
added under it. -/
structure SlotSound (hash : StringHash) (world : World) (slot entry : Nat) (stored : Str)
    (original : Module) (keyAddr data : Nat) : Prop where
  entry : Holds world.cache entry (.entry keyAddr data)
  key : Holds world.cache keyAddr (.key stored)
  module : Holds world.cache data (.module (patchPointers original data))
  added : (stored, original) ∈ world.added
  slot : slotOf hash world.cache stored = some slot

structure Inv (hash : StringHash) (world : World) : Prop where
  tableLength : world.cache.table.length = world.cache.tableCount.toNat
  slots : ∀ slot entry : Nat, world.cache.table[slot]? = some (some entry) →
    ∃ stored original keyAddr data, SlotSound hash world slot entry stored original keyAddr data
  held : ∀ found ∈ world.held, Holds world.cache found.1 (.module found.2)
  counted : world.cache.refcount = world.held.length
  idle : world.cache.inReset = false

/-- The part of the invariant that is about the table. It does not depend on the modules in
use. -/
structure Slots (hash : StringHash) (world : World) : Prop where
  tableLength : world.cache.table.length = world.cache.tableCount.toNat
  sound : ∀ slot entry : Nat, world.cache.table[slot]? = some (some entry) →
    ∃ stored original keyAddr data, SlotSound hash world slot entry stored original keyAddr data
  idle : world.cache.inReset = false

theorem Inv.table (inv : Inv hash world) : Slots hash world :=
  ⟨inv.tableLength, inv.slots, inv.idle⟩

theorem Slots.inv (slots : Slots hash world)
    (held : ∀ found ∈ world.held, Holds world.cache found.1 (.module found.2))
    (counted : world.cache.refcount = world.held.length) : Inv hash world :=
  ⟨slots.tableLength, slots.sound, held, counted, slots.idle⟩

theorem patchPointers_addr (module : Module) (addr : Nat) : (patchPointers module addr).addr = addr := by
  unfold patchPointers normalizePointers
  split
  · assumption
  · rfl

theorem SlotSound.readEntry (sound : SlotSound hash world slot entry stored original keyAddr data) :
    readEntry world.cache entry = some (stored, data) := by
  unfold Mmap.readEntry
  simp only [sound.entry.load, sound.key.load]

theorem SlotSound.readModule (sound : SlotSound hash world slot entry stored original keyAddr data) :
    readModule world.cache data = some (patchPointers original data) := by
  unfold Mmap.readModule
  rw [sound.module.load]

/-- The find meets a module that is too old or of another version. -/
def staleHit (hash : StringHash) (cache : Cache) (key : Str) (now : Int) : Bool :=
  ((slotOf hash cache key).bind fun slot =>
    (cache.table[slot]?).bind fun pointer => pointer.bind fun entry =>
    (readEntry cache entry).bind fun (stored, data) =>
    (readModule cache data).map fun module =>
    stringEq hash key stored && stale cache now module).getD false

/-- The add stores key and module and then has no room left for the table entry. -/
def entryOverflow (hash : StringHash) (cache : Cache) (key : Str) (module : Module) : Bool :=
  vacant hash cache key && fits cache key module &&
    cache.dataSize ≤ cache.dataLength + alignSize (strSize key + 1) +
      alignSize (module.size + 1) + alignSize (sizeofTableEntry + 1)

/-- A find that meets nothing stale misses, or counts what it returns. -/
inductive FindOutcome (hash : StringHash) (world : World) (key : Str) (now : Int) : World → Prop where
  | miss (misses : Nat) :
      FindOutcome hash world key now { world with cache := { world.cache with misses := misses } }
  | hit {slot entry keyAddr data : Nat} {stored : Str} {original : Module}
      (sound : SlotSound hash world slot entry stored original keyAddr data)
      (same : stringEq hash key stored = true)
      (fresh : stale world.cache now (patchPointers original data) = false) :
      FindOutcome hash world key now
        { world with
          cache := { world.cache with
            hits := world.cache.hits + 1, refcount := world.cache.refcount + 1 }
          held := (data, patchPointers original data) :: world.held }

theorem find_outcome (slots : Slots hash world) (calm : staleHit hash world.cache key now = false)
    (taken : step hash world (.find key now) = some next) : FindOutcome hash world key now next := by
  have idle : ¬ world.cache.inReset = true := by simp [slots.idle]
  simp only [step, cacheFind, if_neg idle] at taken
  cases slotFound : slotOf hash world.cache key with
  | none => simp [slotFound] at taken
  | some slot =>
    rw [slotFound, Option.bind_some] at taken
    cases pointer : world.cache.table[slot]? with
    | none => simp [pointer] at taken
    | some pointed =>
      rw [pointer, Option.bind_some] at taken
      cases pointed with
      | none =>
        cases taken
        exact .miss _
      | some entry =>
        obtain ⟨stored, original, keyAddr, data, sound⟩ := slots.sound slot entry pointer
        simp only [sound.readEntry, Option.bind_some, sound.readModule, patchPointers_addr,
          ne_eq, not_true_eq_false, if_false] at taken
        by_cases same : stringEq hash key stored = true
        · by_cases old : stale world.cache now (patchPointers original data) = true
          · have hit : staleHit hash world.cache key now = true := by
              simp [staleHit, slotFound, pointer, sound.readEntry, sound.readModule, same, old]
            rw [hit] at calm
            cases calm
          · have fresh : stale world.cache now (patchPointers original data) = false := by
              simpa using old
            have reread : readModule { world.cache with
                hits := world.cache.hits + 1, refcount := world.cache.refcount + 1 } data =
                some (patchPointers original data) := sound.readModule
            simp only [same, fresh, Bool.not_true, Bool.false_eq_true, if_false, Option.bind_some] at taken
            rw [reread] at taken
            cases taken
            exact .hit sound same fresh
        · simp only [same, Bool.not_false, if_true, Option.bind_some] at taken
          cases taken
          exact .miss _

theorem slotOf_congr {cache after : Cache} (same : after.tableCount = cache.tableCount) (string : Str) :
    slotOf hash after string = slotOf hash cache string := by
  unfold slotOf
  rw [same]

/-- Slots survive whatever keeps the live memory and forgets no added module. -/
theorem SlotSound.mono (sound : SlotSound hash world slot entry stored original keyAddr data)
    (holds : ∀ addr content, Holds world.cache addr content → Holds next.cache addr content)
    (added : ∀ module ∈ world.added, module ∈ next.added)
    (count : next.cache.tableCount = world.cache.tableCount) :
    SlotSound hash next slot entry stored original keyAddr data := by
  constructor
  · exact holds _ _ sound.entry
  · exact holds _ _ sound.key
  · exact holds _ _ sound.module
  · exact added _ sound.added
  · rw [slotOf_congr count]
    exact sound.slot

/-- The table stays sound under whatever leaves it and its memory alone. -/
theorem Slots.mono (slots : Slots hash world) (table : next.cache.table = world.cache.table)
    (count : next.cache.tableCount = world.cache.tableCount)
    (idle : next.cache.inReset = world.cache.inReset)
    (holds : ∀ addr content, Holds world.cache addr content → Holds next.cache addr content)
    (added : ∀ module ∈ world.added, module ∈ next.added) : Slots hash next := by
  constructor
  · rw [table, count]
    exact slots.tableLength
  · intro slot entry pointer
    rw [table] at pointer
    obtain ⟨stored, original, keyAddr, data, sound⟩ := slots.sound slot entry pointer
    exact ⟨stored, original, keyAddr, data, sound.mono holds added count⟩
  · rw [idle]
    exact slots.idle

theorem Inv.find (inv : Inv hash world) (outcome : FindOutcome hash world key now next) :
    Inv hash next := by
  cases outcome with
  | miss misses =>
    refine Slots.inv ?_ ?_ inv.counted
    · exact inv.table.mono rfl rfl rfl (fun _ _ holds => holds.of_memory rfl rfl rfl)
        (fun _ member => member)
    · intro found member
      exact (inv.held found member).of_memory rfl rfl rfl
  | hit sound same fresh =>
    refine Slots.inv ?_ ?_ ?_
    · exact inv.table.mono rfl rfl rfl (fun _ _ holds => holds.of_memory rfl rfl rfl)
        (fun _ member => member)
    · intro found member
      rcases List.mem_cons.mp member with rfl | earlier
      · exact sound.module.of_memory rfl rfl rfl
      · exact (inv.held found earlier).of_memory rfl rfl rfl
    · simp only [inv.counted, List.length_cons]
      omega

theorem Slots.release (slots : Slots hash world)
    (taken : step hash world (.release addr) = some next) : Slots hash next := by
  simp only [step] at taken
  split at taken
  · cases taken
    exact slots.mono rfl rfl rfl (fun _ _ holds => holds.of_memory rfl rfl rfl)
      (fun _ member => member)
  · cases taken

/-- A release takes one module off the list and one off the count. -/
theorem release_counted (taken : step hash world (.release addr) = some next) :
    next.cache.refcount = world.cache.refcount - 1 ∧ next.held.length + 1 = world.held.length := by
  simp only [step] at taken
  split at taken
  · rename_i present
    cases taken
    obtain ⟨found, member, same⟩ := List.any_eq_true.mp present
    have shorter := List.length_eraseP_of_mem (p := fun held => held.1 == addr) member same
    have positive := List.length_pos_of_mem member
    refine ⟨rfl, ?_⟩
    dsimp only
    omega
  · cases taken

theorem Inv.release (inv : Inv hash world)
    (taken : step hash world (.release addr) = some next) : Inv hash next := by
  obtain ⟨count, shorter⟩ := release_counted taken
  refine (inv.table.release taken).inv ?_ ?_
  · simp only [step] at taken
    split at taken
    · cases taken
      intro found member
      exact (inv.held found (List.mem_of_mem_eraseP member)).of_memory rfl rfl rfl
    · cases taken
  · rw [count, inv.counted]
    omega

/-- A reset either finds a module in use and does nothing, or empties the table. -/
theorem cacheReset_held (inv : Inv hash world) (inUse : world.held ≠ []) :
    cacheReset world.cache = world.cache := by
  have positive : world.cache.refcount > 0 := by
    rw [inv.counted]
    have := List.length_pos_iff.mpr inUse
    omega
  unfold cacheReset
  rw [if_pos positive]
  have idle := inv.idle
  cases world with
  | mk cache held added =>
    cases cache
    simp_all

theorem Slots.reset (slots : Slots hash world) :
    Slots hash { world with cache := cacheReset world.cache, added := world.addedAfterReset } := by
  by_cases positive : world.cache.refcount > 0
  · refine slots.mono ?_ ?_ ?_ ?_ ?_
    all_goals simp only [cacheReset, if_pos positive]
    · exact slots.idle.symm
    · exact fun _ _ holds => holds.of_memory rfl rfl rfl
    · simp only [World.addedAfterReset, if_pos positive]
      exact fun _ member => member
  · simp only [cacheReset, if_neg positive]
    refine ⟨by simpa using slots.tableLength, ?_, rfl⟩
    intro slot entry pointer
    rw [List.getElem?_map] at pointer
    obtain ⟨before, -, empty⟩ := Option.map_eq_some_iff.mp pointer
    cases empty

/-- A reset does not touch the count. -/
theorem cacheReset_refcount (cache : Cache) : (cacheReset cache).refcount = cache.refcount := by
  unfold cacheReset
  split <;> rfl

theorem Inv.reset (inv : Inv hash world) :
    Inv hash { world with cache := cacheReset world.cache, added := world.addedAfterReset } := by
  by_cases inUse : world.held = []
  · refine inv.table.reset.inv ?_ ((cacheReset_refcount _).trans inv.counted)
    intro found member
    simp only [inUse, List.not_mem_nil] at member
  · have positive : world.cache.refcount > 0 := by
      rw [inv.counted]
      have := List.length_pos_iff.mpr inUse
      omega
    rw [cacheReset_held inv inUse, World.addedAfterReset, if_pos positive]
    exact inv

/-- The cache once both copies are made. -/
structure Copied (cache : Cache) (key : Str) (module : Module) (keyAddr dataAddr : Nat)
    (after : Cache) : Prop where
  length : after.dataLength =
    cache.dataLength + alignSize (strSize key + 1) + alignSize (module.size + 1)
  holds : ∀ addr content, Holds cache addr content → Holds after addr content
  key : Holds after keyAddr (.key key)
  module : Holds after dataAddr (.module (patchPointers module dataAddr))
  frame : SegmentFrame cache after

theorem store_fits {key : Str} {module : Module} (slot : Nat) (room : fits cache key module = true) :
    ∃ keyAddr dataAddr after, Copied cache key module keyAddr dataAddr after ∧
      store cache slot key module =
        { tableSet after slot keyAddr dataAddr with tableEntries := after.tableEntries + 1 } := by
  simp only [fits, Bool.and_eq_true, decide_eq_true_eq] at room
  obtain ⟨keyRoom, dataRoom⟩ := room
  obtain ⟨keyAddr, withKey, keyCopy, first⟩ := append_spec (fun _ => .key key) keyRoom
  have secondRoom : withKey.dataLength + alignSize (module.size + 1) < withKey.dataSize := by
    obtain ⟨_, _, frame⟩ := first.frame
    rw [first.length, frame]
    exact dataRoom
  obtain ⟨dataAddr, after, dataCopy, second⟩ :=
    append_spec (fun addr => .module (patchPointers module addr)) secondRoom
  refine ⟨keyAddr, dataAddr, after, ⟨?_, ?_, ?_, second.copy, first.frame.trans second.frame⟩, ?_⟩
  · rw [second.length, first.length]
  · intro addr content holds
    exact second.holds _ _ (first.holds _ _ holds)
  · exact second.holds _ _ first.copy
  · unfold store
    simp only [keyCopy, dataCopy]

theorem store_full {key : Str} {module : Module} (slot : Nat) (full : fits cache key module = false) :
    ∃ after, store cache slot key module = cacheReset after ∧
      (∀ addr content, Holds cache addr content → Holds after addr content) ∧
      SegmentFrame cache after := by
  unfold store
  by_cases keyRoom : cache.dataLength + alignSize (strSize key + 1) < cache.dataSize
  · obtain ⟨keyAddr, withKey, keyCopy, first⟩ := append_spec (fun _ => .key key) keyRoom
    have secondFull : ¬ withKey.dataLength + alignSize (module.size + 1) < withKey.dataSize := by
      obtain ⟨_, _, frame⟩ := first.frame
      rw [first.length, frame]
      intro dataRoom
      have fit : fits cache key module = true := by simp [fits, keyRoom, dataRoom]
      rw [fit] at full
      cases full
    refine ⟨withKey, ?_, first.holds, first.frame⟩
    simp only [keyCopy, append_full _ secondFull]
  · rw [append_full _ keyRoom]
    dsimp only
    by_cases dataRoom : cache.dataLength + alignSize (module.size + 1) < cache.dataSize
    · obtain ⟨dataAddr, after, dataCopy, second⟩ :=
        append_spec (fun addr => .module (patchPointers module addr)) dataRoom
      refine ⟨after, ?_, second.holds, second.frame⟩
      simp only [dataCopy]
    · refine ⟨cache, ?_, fun _ _ holds => holds, _, _, rfl⟩
      simp only [append_full _ dataRoom]

/-- What an add does: nothing, a collision counted, a reset for lack of room, or a
module stored. -/
inductive AddOutcome (hash : StringHash) (world : World) (key : Str) (module : Module) :
    World → Prop where
  | occupied (collisions : Nat) : AddOutcome hash world key module
      { world with cache := { world.cache with collisions := collisions } }
  | full {cache : Cache} (full : fits world.cache key module = false)
      (holds : ∀ addr content, Holds world.cache addr content → Holds cache addr content)
      (frame : SegmentFrame world.cache cache) :
      AddOutcome hash world key module
        { world with cache := cacheReset cache, added := world.addedAfterReset }
  | stored {slot keyAddr dataAddr : Nat} {cache : Cache}
      (pointer : world.cache.table[slot]? = some none)
      (slotFound : slotOf hash world.cache key = some slot)
      (room : fits world.cache key module = true)
      (copied : Copied world.cache key module keyAddr dataAddr cache) :
      AddOutcome hash world key module
        { world with
          cache := { tableSet cache slot keyAddr dataAddr with
            tableEntries := cache.tableEntries + 1 }
          added := (key, module) :: world.added }

theorem vacant_of_pointer (slotFound : slotOf hash cache key = some slot)
    (pointer : cache.table[slot]? = some none) : vacant hash cache key = true := by
  unfold vacant
  rw [slotFound]
  simp [pointer]

theorem not_vacant_of_pointer (slotFound : slotOf hash cache key = some slot)
    (pointer : cache.table[slot]? = some (some entry)) : vacant hash cache key = false := by
  unfold vacant
  rw [slotFound]
  simp [pointer]

theorem add_outcome (slots : Slots hash world) (taken : step hash world (.add key module) = some next) :
    AddOutcome hash world key module next := by
  have idle : ¬ world.cache.inReset = true := by simp [slots.idle]
  have idleFlag : world.cache.inReset = false := slots.idle
  simp only [step, cacheAdd, if_neg idle] at taken
  cases slotFound : slotOf hash world.cache key with
  | none => simp [slotFound] at taken
  | some slot =>
    rw [slotFound, Option.bind_some] at taken
    cases pointer : world.cache.table[slot]? with
    | none => simp [pointer] at taken
    | some pointed =>
      rw [pointer, Option.bind_some] at taken
      cases pointed with
      | some entry =>
        obtain ⟨stored, original, keyAddr, data, sound⟩ := slots.sound slot entry pointer
        rw [not_vacant_of_pointer slotFound pointer] at taken
        simp only [sound.readEntry, Option.map_some, Bool.not_false, Bool.true_or, if_true,
          Option.some.injEq] at taken
        subst taken
        split
        · exact .occupied world.cache.collisions
        · exact .occupied _
      | none =>
        rw [vacant_of_pointer slotFound pointer] at taken
        simp only [Bool.not_true, idleFlag, Bool.or_false, Bool.false_eq_true, if_false] at taken
        by_cases room : fits world.cache key module = true
        · obtain ⟨keyAddr, dataAddr, after, copied, same⟩ := store_fits slot room
          rw [if_pos room, same, Option.map_some, Option.some.injEq] at taken
          subst taken
          exact .stored pointer slotFound room copied
        · have full : fits world.cache key module = false := by simpa using room
          obtain ⟨after, same, holds, frame⟩ := store_full slot full
          rw [if_neg room, same, Option.map_some, Option.some.injEq] at taken
          subst taken
          exact .full full holds frame

/-- Copies made in the data segment leave every slot alone. -/
theorem Slots.segment (slots : Slots hash world) (frame : SegmentFrame world.cache cache)
    (holds : ∀ addr content, Holds world.cache addr content → Holds cache addr content)
    (added : ∀ module ∈ world.added, module ∈ more) :
    Slots hash { world with cache := cache, added := more } := by
  obtain ⟨length, memory, rfl⟩ := frame
  exact slots.mono rfl rfl rfl holds added

/-- `table_set` fills the slot, or leaves it empty when the entry does not fit. -/
theorem tableSet_spec (cache : Cache) (slot keyAddr dataAddr : Nat) :
    ∃ after pointer, tableSet cache slot keyAddr dataAddr =
        { after with table := after.table.set slot pointer } ∧
      SegmentFrame cache after ∧
      (∀ addr content, Holds cache addr content → Holds after addr content) ∧
      (∀ entry, pointer = some entry → Holds after entry (.entry keyAddr dataAddr)) ∧
      (cache.dataLength + alignSize (sizeofTableEntry + 1) < cache.dataSize → pointer ≠ none) := by
  unfold tableSet
  by_cases room : cache.dataLength + alignSize (sizeofTableEntry + 1) < cache.dataSize
  · obtain ⟨addr, after, copy, appended⟩ := append_spec (fun _ => .entry keyAddr dataAddr) room
    refine ⟨after, some addr, by simp only [copy], appended.frame, appended.holds, ?_, ?_⟩
    · rintro entry ⟨rfl⟩
      exact appended.copy
    · intro _ empty
      cases empty
  · refine ⟨cache, none, by simp only [append_full _ room], ⟨_, _, rfl⟩, fun _ _ holds => holds, ?_, ?_⟩
    · intro entry impossible
      cases impossible
    · exact fun fit => absurd fit room

theorem Slots.add (slots : Slots hash world) (outcome : AddOutcome hash world key module next) :
    Slots hash next := by
  cases outcome with
  | occupied collisions =>
    exact slots.mono rfl rfl rfl (fun _ _ holds => holds.of_memory rfl rfl rfl)
      (fun _ member => member)
  | full full holds frame =>
    have emptied := (slots.segment frame holds fun _ member => member).reset
    obtain ⟨_, _, rfl⟩ := frame
    exact emptied
  | @stored slot keyAddr dataAddr cache pointer slotFound room copied =>
    have withCopies := slots.segment copied.frame copied.holds
      (fun _ member => List.mem_cons_of_mem (key, module) member)
    obtain ⟨after, newPointer, set, frame, holds, entryHolds, -⟩ :=
      tableSet_spec cache slot keyAddr dataAddr
    have slotAfter : slotOf hash after key = some slot := by
      obtain ⟨_, _, rfl⟩ := frame
      obtain ⟨_, _, copiedFrame⟩ := copied.frame
      rw [← slotFound]
      exact slotOf_congr (by rw [copiedFrame]) key
    have withEntry := withCopies.segment frame holds fun _ member => member
    rw [set]
    refine ⟨by simpa using withEntry.tableLength, ?_, withEntry.idle⟩
    intro other entry found
    rw [List.getElem?_set] at found
    by_cases here : slot = other
    · subst here
      simp only [if_true] at found
      split at found
      · have entryAddr := entryHolds entry (Option.some.inj found)
        refine ⟨key, module, keyAddr, dataAddr, entryAddr.of_memory rfl rfl rfl,
          (holds _ _ copied.key).of_memory rfl rfl rfl,
          (holds _ _ copied.module).of_memory rfl rfl rfl, List.mem_cons_self, ?_⟩
        rw [← slotAfter]
        exact slotOf_congr rfl key
      · cases found
    · rw [if_neg here] at found
      obtain ⟨stored, original, storedKey, data, sound⟩ := withEntry.sound other entry found
      exact ⟨stored, original, storedKey, data,
        sound.mono (fun _ _ held => held.of_memory rfl rfl rfl) (fun _ member => member) rfl⟩

/-- An add gives nobody a module and does not touch the count. -/
theorem add_counted (outcome : AddOutcome hash world key module next) :
    next.held = world.held ∧ next.cache.refcount = world.cache.refcount := by
  cases outcome with
  | occupied collisions => exact ⟨rfl, rfl⟩
  | full full holds frame =>
    obtain ⟨_, _, rfl⟩ := frame
    exact ⟨rfl, cacheReset_refcount _⟩
  | @stored slot keyAddr dataAddr cache pointer slotFound room copied =>
    obtain ⟨after, newPointer, set, frame, -⟩ := tableSet_spec cache slot keyAddr dataAddr
    obtain ⟨_, _, same⟩ := copied.frame.trans frame
    rw [set, same]
    exact ⟨rfl, rfl⟩

theorem Inv.add (inv : Inv hash world) (outcome : AddOutcome hash world key module next) :
    Inv hash next := by
  obtain ⟨held, count⟩ := add_counted outcome
  refine (inv.table.add outcome).inv ?_ (by rw [count, held, inv.counted])
  intro found member
  rw [held] at member
  have before := inv.held found member
  cases outcome with
  | occupied collisions => exact before.of_memory rfl rfl rfl
  | full full holds frame =>
    have copied : Inv hash _ := (inv.table.segment frame holds fun _ other => other).inv
      (fun found inside => holds _ _ (inv.held found inside)) (by
        obtain ⟨_, _, rfl⟩ := frame
        exact inv.counted)
    exact copied.reset.held found member
  | @stored slot keyAddr dataAddr cache pointer slotFound room copied =>
    obtain ⟨after, newPointer, set, frame, holds, -⟩ := tableSet_spec cache slot keyAddr dataAddr
    rw [set]
    exact (holds _ _ (copied.holds _ _ before)).of_memory rfl rfl rfl

/-- One operation whose find, if it is one, meets nothing stale. -/
def Calm (hash : StringHash) (world : World) : Operation → Prop
  | .find key now => staleHit hash world.cache key now = false
  | _ => True

theorem Inv.step (inv : Inv hash world) (calm : Calm hash world operation)
    (taken : step hash world operation = some next) : Inv hash next := by
  cases operation with
  | find key now => exact inv.find (find_outcome inv.table calm taken)
  | add key module => exact inv.add (add_outcome inv.table taken)
  | release addr => exact inv.release taken
  | reset =>
    cases taken
    exact inv.reset
  | gc =>
    cases taken
    exact inv

/-- A find that meets something stale empties its slot and returns the module uncounted. -/
theorem find_stale (slots : Slots hash world) (hit : staleHit hash world.cache key now = true)
    (taken : step hash world (.find key now) = some next) :
    ∃ slot misses entries found, next = { world with
      cache := { tableUnset world.cache slot with misses := misses, tableEntries := entries }
      held := found :: world.held } := by
  have idle : ¬ world.cache.inReset = true := by simp [slots.idle]
  cases slotFound : slotOf hash world.cache key with
  | none => simp [staleHit, slotFound] at hit
  | some slot =>
    cases pointer : world.cache.table[slot]? with
    | none => simp [staleHit, slotFound, pointer] at hit
    | some pointed =>
      cases pointed with
      | none => simp [staleHit, slotFound, pointer] at hit
      | some entry =>
        obtain ⟨stored, original, keyAddr, data, sound⟩ := slots.sound slot entry pointer
        simp only [staleHit, slotFound, pointer, sound.readEntry, sound.readModule,
          Option.bind_some, Option.map_some, Option.getD_some, Bool.and_eq_true] at hit
        have reread : readModule { tableUnset world.cache slot with
            misses := world.cache.misses + 1, tableEntries := world.cache.tableEntries - 1 } data =
            some (patchPointers original data) := sound.readModule
        simp only [step, cacheFind, if_neg idle, slotFound, pointer, sound.readEntry,
          sound.readModule, Option.bind_some, hit.1, hit.2, Bool.not_true, Bool.false_eq_true,
          if_false, if_true] at taken
        rw [reread] at taken
        cases taken
        exact ⟨slot, _, _, _, rfl⟩

/-- Emptying a slot leaves the others as they are. -/
theorem Slots.unset (slots : Slots hash world) (slot misses : Nat) (entries : UInt32)
    (held : List (Nat × Module)) :
    Slots hash { world with
      cache := { tableUnset world.cache slot with misses := misses, tableEntries := entries }
      held := held } := by
  refine ⟨by simpa [tableUnset] using slots.tableLength, ?_, slots.idle⟩
  intro other entry pointer
  simp only [tableUnset, List.getElem?_set] at pointer
  split at pointer
  · split at pointer <;> cases pointer
  · obtain ⟨stored, original, keyAddr, data, sound⟩ := slots.sound other entry pointer
    exact ⟨stored, original, keyAddr, data,
      sound.mono (fun _ _ holds => holds.of_memory rfl rfl rfl) (fun _ member => member) rfl⟩

/-- Whatever a find meets, it keeps the table sound and counts no more than it returns. -/
theorem Slots.find (slots : Slots hash world)
    (taken : step hash world (.find key now) = some next) :
    Slots hash next ∧ (world.cache.refcount ≤ world.held.length →
      next.cache.refcount ≤ next.held.length) := by
  by_cases hit : staleHit hash world.cache key now = true
  · obtain ⟨slot, misses, entries, found, rfl⟩ := find_stale slots hit taken
    refine ⟨slots.unset slot misses entries _, ?_⟩
    intro counted
    simp only [tableUnset, List.length_cons]
    omega
  · have calm : staleHit hash world.cache key now = false := by simpa using hit
    cases find_outcome slots calm taken with
    | miss misses =>
      exact ⟨slots.mono rfl rfl rfl (fun _ _ holds => holds.of_memory rfl rfl rfl)
        (fun _ member => member), id⟩
    | hit sound same fresh =>
      refine ⟨slots.mono rfl rfl rfl (fun _ _ holds => holds.of_memory rfl rfl rfl)
        (fun _ member => member), ?_⟩
      intro counted
      simp only [List.length_cons]
      omega

/-- Every operation keeps the table sound, and the count at most what is in use. -/
theorem Slots.step (slots : Slots hash world)
    (taken : step hash world operation = some next) :
    Slots hash next ∧ (world.cache.refcount ≤ world.held.length →
      next.cache.refcount ≤ next.held.length) := by
  cases operation with
  | find key now => exact slots.find taken
  | add key module =>
    have outcome := add_outcome slots taken
    obtain ⟨held, count⟩ := add_counted outcome
    exact ⟨slots.add outcome, by rw [held, count]; exact id⟩
  | release addr =>
    obtain ⟨count, shorter⟩ := release_counted taken
    refine ⟨slots.release taken, ?_⟩
    omega
  | reset =>
    cases taken
    exact ⟨slots.reset, fun counted => (cacheReset_refcount _).trans_le counted⟩
  | gc =>
    cases taken
    exact ⟨slots, id⟩

theorem inv_openCache (hash : StringHash) (data dataSize : Nat) (tableCount : UInt32) (maxAge : ℚ) :
    Inv hash ⟨openCache data dataSize tableCount maxAge, [], []⟩ := by
  refine ⟨by simp [openCache], ?_, ?_, rfl, rfl⟩
  · intro slot entry pointer
    simp only [openCache, List.getElem?_replicate] at pointer
    split at pointer <;> cases pointer
  · intro found member
    cases member

end HandlebarsC.Mmap
