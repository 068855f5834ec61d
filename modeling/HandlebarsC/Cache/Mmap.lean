import Mathlib.Algebra.Order.Ring.Rat
import HandlebarsC.Core.Map
import HandlebarsC.Serializer.Relocate

/-!
`handlebars_cache_mmap.c`, used by one process. The data segment is the log of
what was written to it; pointers into it are addresses and are read through the
log. Locking and page protection have no effect here.
-/

namespace HandlebarsC.Mmap

open Serializer

/-- What a call of `append` copies into the data segment. -/
inductive Content where
  | key (key : Str)
  | module (module : Module)
  /-- `struct table_entry`, a pair of addresses -/
  | entry (key data : Nat)
  deriving DecidableEq

/-- One write to the data segment. -/
structure Block where
  addr : Nat
  size : Nat
  content : Content
  deriving DecidableEq

def Block.covers (block : Block) (position : Nat) : Bool :=
  block.addr ≤ position && position < block.addr + block.size

/-- `struct handlebars_cache_mmap`, with the settings of its `handlebars_cache`. -/
structure Cache where
  data : Nat
  dataSize : Nat
  dataLength : Nat
  /-- Writes to the data segment, newest first. -/
  memory : List Block
  tableCount : UInt32
  tableEntries : UInt32
  table : List (Option Nat)
  hits : Nat
  misses : Nat
  collisions : Nat
  inReset : Bool
  refcount : Int
  maxAge : ℚ

/-- What lies at an address: the newest write over it, when it starts there. -/
def load (cache : Cache) (addr : Nat) : Option Content :=
  match cache.memory.find? (·.covers addr) with
  | some block => if block.addr = addr then some block.content else none
  | none => none

def sizeofTableEntry : Nat := 16

/-- `append`: the address of the copy, or NULL when the segment is full. -/
def append (cache : Cache) (content : Nat → Content) (size : Nat) : Option Nat × Cache :=
  let alignedSize := alignSize (size + 1)
  let addr := cache.data + cache.dataLength
  if cache.dataLength + alignedSize ≥ cache.dataSize then (none, cache)
  else
    (some addr,
      { cache with
        dataLength := cache.dataLength + alignedSize
        memory := ⟨addr, alignedSize, content addr⟩ :: cache.memory })

/-- `hbs_str_hash(string) % intern->table_count`, undefined for an empty table. -/
def slotOf (hash : StringHash) (cache : Cache) (string : Str) : Option Nat :=
  if cache.tableCount = 0 then none else some (hash string % cache.tableCount).toNat

/-- The key and the data pointer of an entry. -/
def readEntry (cache : Cache) (entry : Nat) : Option (Str × Nat) :=
  match load cache entry with
  | some (.entry key data) =>
    match load cache key with
    | some (.key stored) => some (stored, data)
    | _ => none
  | _ => none

def readModule (cache : Cache) (addr : Nat) : Option Module :=
  match load cache addr with
  | some (.module module) => some module
  | _ => none

def tableSet (cache : Cache) (slot key data : Nat) : Cache :=
  let (entry, cache) := append cache (fun _ => .entry key data) sizeofTableEntry
  { cache with table := cache.table.set slot entry }

def tableUnset (cache : Cache) (slot : Nat) : Cache :=
  { cache with table := cache.table.set slot none }

/-- `cache_reset`. Waiting does not change the reference count of the only process. -/
def cacheReset (cache : Cache) : Cache :=
  if cache.refcount > 0 then { cache with inReset := false }
  else
    { cache with
      tableEntries := 0
      dataLength := 0
      table := cache.table.map fun _ => none
      inReset := false }

/-- `module->version != handlebars_version() || (cache->max_age >= 0 &&
difftime(now, module->ts) >= cache->max_age)` -/
def stale (cache : Cache) (now : Int) (module : Module) : Bool :=
  module.version != handlebarsVersion ||
    (0 ≤ cache.maxAge && cache.maxAge ≤ ((now - module.ts : Int) : ℚ))

def pointerMismatch : Error :=
  ⟨.error, bytes "Shared memory pointer mismatch", LocInfo.zero⟩

/-- `cache_find` at time `now`: the address of the module, or NULL. Reading memory
that was overwritten is undefined. -/
def cacheFind (hash : StringHash) (now : Int) (cache : Cache) (key : Str) :
    Option (Except Error (Option Nat) × Cache) :=
  if cache.inReset then some (.ok none, cache)
  else
    (slotOf hash cache key).bind fun slot =>
    (cache.table[slot]?).bind fun pointer =>
    match pointer with
    | none => some (.ok none, { cache with misses := cache.misses + 1 })
    | some entry =>
      (readEntry cache entry).bind fun (stored, data) =>
      if !stringEq hash key stored then
        some (.ok none, { cache with misses := cache.misses + 1 })
      else
        (readModule cache data).bind fun module =>
        if stale cache now module then
          -- The label the code jumps to returns the module all the same.
          some (.ok (some data),
            { tableUnset cache slot with
              misses := cache.misses + 1
              tableEntries := cache.tableEntries - 1 })
        else if data ≠ module.addr then some (.error pointerMismatch, cache)
        else
          some (.ok (some data),
            { cache with hits := cache.hits + 1, refcount := cache.refcount + 1 })

/-- The part of `cache_add` for an empty slot. The copy's pointers are patched
before anything reads it. -/
def store (cache : Cache) (slot : Nat) (key : Str) (module : Module) : Cache :=
  let (keyCopy, cache) := append cache (fun _ => .key key) (strSize key)
  let (dataCopy, cache) := append cache (fun addr => .module (patchPointers module addr)) module.size
  match keyCopy, dataCopy with
  | some keyAddr, some dataAddr =>
    { tableSet cache slot keyAddr dataAddr with tableEntries := cache.tableEntries + 1 }
  | _, _ => cacheReset cache

def cacheAdd (hash : StringHash) (cache : Cache) (key : Str) (module : Module) : Option Cache :=
  if cache.inReset then some cache
  else
    (slotOf hash cache key).bind fun slot =>
    (cache.table[slot]?).bind fun pointer =>
    match pointer with
    | some entry =>
      (readEntry cache entry).map fun (stored, _) =>
      if stringEq hash stored key then cache
      else { cache with collisions := cache.collisions + 1 }
    | none => some (store cache slot key module)

def cacheRelease (cache : Cache) : Cache :=
  { cache with refcount := cache.refcount - 1 }

/-- What the constructor leaves behind, after its own `cache_reset`. -/
def openCache (data dataSize : Nat) (tableCount : UInt32) (maxAge : ℚ) : Cache :=
  { data := data, dataSize := dataSize, dataLength := 0, memory := []
    tableCount := tableCount, tableEntries := 0, table := List.replicate tableCount.toNat none
    hits := 0, misses := 0, collisions := 0, inReset := false, refcount := 0, maxAge := maxAge }

inductive Operation where
  | find (key : Str) (now : Int)
  | add (key : Str) (module : Module)
  | release (addr : Nat)
  | reset
  | gc

/-- The key's slot is empty. -/
def vacant (hash : StringHash) (cache : Cache) (key : Str) : Bool :=
  match slotOf hash cache key with
  | some slot => cache.table[slot]? == some none
  | none => false

/-- The copies of key and module fit into the data segment. -/
def fits (cache : Cache) (key : Str) (module : Module) : Bool :=
  let withKey := cache.dataLength + alignSize (strSize key + 1)
  withKey < cache.dataSize && withKey + alignSize (module.size + 1) < cache.dataSize

/-- The cache, the modules its users were given and have not released yet (as they
were when found), and the modules stored since the last reset that took effect. -/
structure World where
  cache : Cache
  held : List (Nat × Module)
  added : List (Str × Module)

/-- What a reset leaves of the modules stored. -/
def World.addedAfterReset (world : World) : List (Str × Module) :=
  if world.cache.refcount > 0 then world.added else []

/-- One operation. Users release only what they were given. -/
def step (hash : StringHash) (world : World) : Operation → Option World
  | .find key now =>
    (cacheFind hash now world.cache key).bind fun (result, cache) =>
    match result with
    | .ok (some addr) =>
      (readModule cache addr).map fun module =>
      { world with cache := cache, held := (addr, module) :: world.held }
    | _ => some { world with cache := cache }
  | .add key module =>
    (cacheAdd hash world.cache key module).map fun cache =>
    { world with
      cache := cache
      added :=
        if !vacant hash world.cache key || world.cache.inReset then world.added
        else if fits world.cache key module then (key, module) :: world.added
        else world.addedAfterReset }
  | .release addr =>
    if world.held.any (·.1 == addr) then
      some { world with
        cache := cacheRelease world.cache
        held := world.held.eraseP (·.1 == addr) }
    else none
  | .reset =>
    some { world with cache := cacheReset world.cache, added := world.addedAfterReset }
  | .gc => some world

end HandlebarsC.Mmap
