import Mathlib.Data.Nat.Log
import HandlebarsC.Core.Map

/-!
`handlebars_map.c`: an open addressing hash table whose slots point into a vector of
entries in insertion order. Removed entries leave a hole in the vector and a
tombstone in the table.
-/

namespace HandlebarsC

/-- `struct handlebars_map_entry` -/
structure MapEntry (α : Type) where
  key : Str
  value : α
  tableOffset : Nat
  deriving DecidableEq, Repr

/-- A slot of the table: NULL, the tombstone, or a pointer to a place of the vector. -/
inductive MapSlot where
  | null
  | tombstone
  | entry (index : Nat)
  deriving DecidableEq, Repr

/-- `struct handlebars_map`. The vector has `vec_capacity` places, of which those that
hold no entry are `none`, and the table `table_capacity`. -/
structure Map (α : Type) where
  i : Nat
  vecOffset : Nat
  isInIteration : Bool
  refcount : Nat
  vec : List (Option (MapEntry α))
  table : List MapSlot
  deriving DecidableEq, Repr

/-- How an operation fails: with an error, by an assertion or an access that is none of
the map's, or because the calls nest deeper than the model follows them. -/
inductive MapFailure where
  | threw (error : Error)
  | crashed
  | exhausted
  deriving DecidableEq, Repr

abbrev MapResult (α : Type) := Except MapFailure α

namespace Map

variable {α : Type}

/-- `HANDLEBARS_MAP_MIN_LOAD_FACTOR` -/
def minLoadFactor : Nat := 10

/-- `HANDLEBARS_MAP_MAX_LOAD_FACTOR` -/
def maxLoadFactor : Nat := 60

/-- `HANDLEBARS_MAP_CAPACITY_TABLE` -/
def capacityTable : List Nat :=
  [5, 11, 23, 53, 97, 193, 389, 769, 1543, 3079, 6151, 12289, 24593, 49157, 98317, 196613,
    393241, 786433, 1572869, 3145739, 6291469, 12582917, 25165843, 50331653, 100663319,
    201326611, 402653189, 805306457, 1610612741]

def vecCapacity (map : Map α) : Nat := map.vec.length

def tableCapacity (map : Map α) : Nat := map.table.length

/-- `map_choose_vec_capacity_log2`: the number of bits of `capacity | 3`. -/
def chooseVecCapacityLog2 (capacity : Nat) : Nat := Nat.log2 (capacity ||| 3) + 1

/-- `ht_choose_table_capacity`: beyond its table the process ends. -/
def chooseTableCapacity (elements : Nat) : Option Nat :=
  capacityTable.find? fun capacity => elements * 100 / maxLoadFactor ≤ capacity

/-- `struct ht_find_result`; `entry` is the slot and the place its pointer leads to. -/
structure FindResult where
  emptyFound : Bool
  emptyOffset : Nat
  entry : Option (Nat × Nat)
  deriving DecidableEq, Repr

/-- The entry a pointer leads to; the key of a hole is NULL. -/
def entryAt (map : Map α) (index : Nat) : Option (MapEntry α) := map.vec[index]?.join

/-- The loop of `map_find_entry`, `left` steps before its end. -/
def findLoop (hash : StringHash) (map : Map α) (key : Str) (start : Nat) :
    Nat → Nat → FindResult → MapResult FindResult
  | 0, _, ret => .ok ret
  | left + 1, i, ret =>
    let pos := (start + i) % map.tableCapacity
    match map.table[pos]? with
    | some .null => .ok { ret with emptyFound := true, emptyOffset := pos }
    | some .tombstone =>
      findLoop hash map key start left (i + 1)
        (if ret.emptyFound then ret else { ret with emptyOffset := pos })
    | some (.entry index) =>
      match map.entryAt index with
      | some entry =>
        if stringEq hash entry.key key then .ok { ret with entry := some (pos, index) }
        else findLoop hash map key start left (i + 1) ret
      | none => .error .crashed
    | none => .error .crashed

/-- `map_find_entry` -/
def findEntry (hash : StringHash) (map : Map α) (key : Str) : MapResult FindResult :=
  findLoop hash map key ((hash key).toNat % map.tableCapacity) map.tableCapacity 0 ⟨false, 0, none⟩

/-- `table[offset] == NULL || table[offset] == HANDLEBARS_MAP_TOMBSTONE` -/
def isInsertable (map : Map α) (offset : Nat) : Bool :=
  map.table[offset]? == some .null || map.table[offset]? == some .tombstone

/-- `map_add_at_table_offset`, under its assertions. -/
def addAtTableOffset (map : Map α) (key : Str) (value : α) (offset : Nat) :
    MapResult (Map α) :=
  if map.vecOffset < map.vecCapacity ∧ map.isInsertable offset then
    .ok { map with
      vec := map.vec.set map.vecOffset (some ⟨key, value, offset⟩)
      table := map.table.set offset (.entry map.vecOffset)
      i := map.i + 1
      vecOffset := map.vecOffset + 1 }
  else .error .crashed

/-- `handlebars_map_ctor` -/
def ctor (capacity : Nat) : MapResult (Map α) :=
  match chooseTableCapacity capacity with
  | some tableCapacity => .ok
    { i := 0, vecOffset := 0, isInIteration := false, refcount := 0
      vec := List.replicate capacity none
      table := List.replicate tableCapacity .null }
  | none => .error .crashed

/-- The entries that `handlebars_map_foreach` goes through. -/
def entries (map : Map α) : List (MapEntry α) := (map.vec.take map.vecOffset).filterMap id

/-- `handlebars_map_count` -/
def count (map : Map α) : Nat := map.i

/-- `handlebars_map_load_factor` -/
def loadFactor (map : Map α) : Nat := map.i * 100 / map.tableCapacity

/-- `handlebars_map_is_sparse` -/
def isSparse (map : Map α) : Bool := map.vecOffset != map.i

section Recursion

/-! Rehashing copies the map with `handlebars_map_add`, which may rehash. -/

variable (rehash : Map α → Bool → MapResult (Map α)) (hash : StringHash)

def addAfter (map : Map α) (key : Str) (value : α) : MapResult (Map α) := do
  let map ← rehash map false
  let o ← findEntry hash map key
  if o.entry.isSome || !o.emptyFound then
    .error (.threw ⟨.error, bytes "Failed to add to hash table", LocInfo.zero⟩)
  else map.addAtTableOffset key value o.emptyOffset

def addAll (map : Map α) : List (MapEntry α) → MapResult (Map α)
  | [] => .ok map
  | entry :: rest => do
    let map ← addAfter rehash hash map entry.key entry.value
    addAll map rest

def copyCtorWith (prevMap : Map α) (newCapacity : Nat) : MapResult (Map α) := do
  let map ← ctor (if newCapacity < prevMap.vecCapacity then prevMap.vecCapacity else newCapacity)
  addAll rehash hash map prevMap.entries

/-- A map that is shared, full or loaded is replaced by a copy, which the caller owns
if it owned the map. -/
def rehashWith (map : Map α) (force : Bool) : MapResult (Map α) :=
  if map.isInIteration then .ok map
  else if force || map.refcount > 1 || map.vecOffset == map.vecCapacity ||
      map.loadFactor > maxLoadFactor then do
    let copy ← copyCtorWith rehash hash map (2 ^ chooseVecCapacityLog2 (map.i + 1))
    .ok (if map.refcount ≥ 1 then { copy with refcount := copy.refcount + 1 } else copy)
  else .ok map

end Recursion

/-- Calls of `handlebars_map_rehash` nested at most so deep. -/
def rehashWithin (hash : StringHash) : Nat → Map α → Bool → MapResult (Map α)
  | 0 => fun _ _ => .error .exhausted
  | depth + 1 => rehashWith (rehashWithin hash depth) hash

/-- `handlebars_map_rehash` -/
def rehash (hash : StringHash) (map : Map α) (force : Bool) : MapResult (Map α) :=
  rehashWithin hash 2 map force

/-- `handlebars_map_copy_ctor` -/
def copyCtor (hash : StringHash) (prevMap : Map α) (newCapacity : Nat) : MapResult (Map α) :=
  copyCtorWith (rehash hash) hash prevMap newCapacity

/-- `handlebars_map_add` -/
def add (hash : StringHash) (map : Map α) (key : Str) (value : α) : MapResult (Map α) :=
  addAfter (rehash hash) hash map key value

/-- `handlebars_map_remove` -/
def remove (hash : StringHash) (map : Map α) (key : Str) : MapResult (Map α) := do
  let map ← rehash hash map (map.loadFactor < minLoadFactor)
  let o ← findEntry hash map key
  match o.entry with
  | none => .ok map
  | some (offset, index) => .ok { map with
      table := map.table.set offset .tombstone
      vec := map.vec.set index none
      i := map.i - 1 }

/-- `handlebars_map_find` -/
def find (hash : StringHash) (map : Map α) (key : Str) : MapResult (Option α) := do
  let o ← findEntry hash map key
  .ok ((o.entry.bind fun place => map.entryAt place.2).map MapEntry.value)

/-- `handlebars_map_update` -/
def update (hash : StringHash) (map : Map α) (key : Str) (value : α) : MapResult (Map α) := do
  let map ← rehash hash map false
  let o ← findEntry hash map key
  match o.entry with
  | some (_, index) => .ok { map with
      vec := map.vec.modify index (Option.map fun entry => { entry with value := value }) }
  | none =>
    if o.emptyFound then map.addAtTableOffset key value o.emptyOffset
    else .error (.threw ⟨.error, bytes "Failed to update to hash table", LocInfo.zero⟩)

/-- `handlebars_map_get_kv_at_index` -/
def getKvAtIndex (map : Map α) (index : Nat) : MapResult (Option (Str × α)) :=
  if index ≥ map.vecOffset then
    .error (.threw ⟨.error, bytes "Out of bounds", LocInfo.zero⟩)
  else .ok ((map.entryAt index).map fun entry => (entry.key, entry.value))

/-- `handlebars_map_sparse_array_compact`, up to the first hole: where both cursors
stand then, of which the second counts the hole and not what is before it. -/
def compactScan (vec : List (Option (MapEntry α))) : Nat → Nat → Nat × Nat
  | 0, i => (i, 0)
  | left + 1, i => if vec[i]?.join.isNone then (i + 1, 1) else compactScan vec left (i + 1)

/-- The loop that moves the entries behind the first hole. -/
def compactLoop (vec : List (Option (MapEntry α))) (table : List MapSlot) :
    Nat → Nat → Nat → List (Option (MapEntry α)) × List MapSlot × Nat
  | 0, _, vecOffset => (vec, table, vecOffset)
  | left + 1, i, vecOffset =>
    match vec[i]?.join with
    | some entry =>
      compactLoop (vec.set vecOffset (some entry))
        (table.set entry.tableOffset (.entry vecOffset)) left (i + 1) (vecOffset + 1)
    | none => compactLoop vec table left (i + 1) vecOffset

/-- `handlebars_map_sparse_array_compact` -/
def sparseArrayCompact (map : Map α) : Map α :=
  if map.i = map.vecOffset then map
  else
    let (i, vecOffset) := compactScan map.vec map.vecOffset 0
    let (vec, table, vecOffset) :=
      compactLoop map.vec map.table (map.vecOffset - i) i vecOffset
    { map with vec := vec, table := table, vecOffset := vecOffset }

/-- `handlebars_map_set_is_in_iteration` -/
def setIsInIteration (map : Map α) (isInIteration : Bool) : Map α :=
  { map with isInIteration := isInIteration }

/-- `map_rebuild_references` -/
def rebuildReferences (map : Map α) : MapResult (Map α) :=
  if map.vecOffset = map.i then
    .ok { map with table := go map.table 0 (map.vec.take map.vecOffset) }
  else .error .crashed
where
  go (table : List MapSlot) : Nat → List (Option (MapEntry α)) → List MapSlot
    | _, [] => table
    | i, none :: rest => go (table.set 0 (.entry i)) (i + 1) rest
    | i, some entry :: rest => go (table.set entry.tableOffset (.entry i)) (i + 1) rest

/-- `sort_r`, over an order of entries. -/
abbrev SortR (α : Type) :=
  (MapEntry α → MapEntry α → Int) → List (MapEntry α) → List (MapEntry α)

/-- The part that `handlebars_map_sort` and `handlebars_map_sort_r` share. The
comparison asserts that the keys are there. -/
def sortBy (hash : StringHash) (sortR : SortR α) (map : Map α)
    (compare : Str × α → Str × α → Int) : MapResult (Map α) := do
  let map ← rehash hash map map.isSparse
  let segment := map.vec.take map.i
  if segment.all Option.isSome then
    let order := fun (left right : MapEntry α) =>
      compare (left.key, left.value) (right.key, right.value)
    rebuildReferences { map with
      vec := (sortR order (segment.filterMap id)).map some ++ map.vec.drop map.i }
  else .error .crashed

/-- `handlebars_map_sort` -/
def sort (hash : StringHash) (sortR : SortR α) (map : Map α)
    (compare : Str × α → Str × α → Int) : MapResult (Map α) :=
  sortBy hash sortR map compare

/-- `handlebars_map_sort_r` -/
def sortArg (hash : StringHash) (sortR : SortR α) (map : Map α)
    (compare : Str × α → Str × α → β → Int) (arg : β) : MapResult (Map α) :=
  sortBy hash sortR map fun left right => compare left right arg

/-- `handlebars_map_addref`: the count stops at 255. -/
def addref (map : Map α) : Map α :=
  if map.refcount < 255 then { map with refcount := map.refcount + 1 } else map

/-- `handlebars_map_delref`: with the last reference the map is freed, and 255 stays. -/
def delref (map : Map α) : Option (Map α) :=
  if map.refcount = 255 then some map
  else if map.refcount ≤ 1 then none
  else some { map with refcount := map.refcount - 1 }

/-- Whether `handlebars_map_rehash` replaces the map. -/
def needsRehash (map : Map α) (force : Bool) : Bool :=
  !map.isInIteration && (force || map.refcount > 1 || map.vecOffset == map.vecCapacity ||
    map.loadFactor > maxLoadFactor)

/-- A rehash leaves the map alone, or cannot take a reference to it away. -/
def Lasting (map : Map α) : Prop :=
  map.isInIteration = true ∨ map.refcount = 255 ∨
    map.refcount ≤ 1 ∧ map.vecOffset ≠ map.vecCapacity ∧ map.loadFactor ≤ maxLoadFactor

/-- What is left at the caller's pointer by a call that throws behind its rehash, which has
released the map if it replaced it. -/
def abandoned (map : Map α) : Option (Map α) :=
  if map.needsRehash false then map.delref else some map

/-- The start of a value iteration: there is one if the map has entries. -/
def iteratorInit (map : Map α) : MapResult (Option (Str × α) × Map α) :=
  if map.count = 0 then .ok (none, map)
  else do
    let map := map.sparseArrayCompact
    let first ← map.getKvAtIndex 0
    if map.isInIteration then .error .crashed
    else .ok (first, map.setIsInIteration true)

/-- The next step of a value iteration, after the one at `index`. One less than no
entries is a huge unsigned number. -/
def iteratorNext (map : Map α) (index : Nat) : MapResult (Option (Str × α) × Map α) :=
  if 0 < map.count ∧ index ≥ map.count - 1 then .ok (none, map.setIsInIteration false)
  else do
    let next ← map.getKvAtIndex (index + 1)
    .ok (next, map)

end Map

end HandlebarsC
