import HandlebarsC.Map.Open
import HandlebarsC.Vm.State

/-!
Maps with their reference counts: the maps that were allocated, by address, and two stacks of
values that hold them.
-/

namespace HandlebarsC

open Effect

/-- The maps that were allocated, of which those that were freed are `none`, and the stacks of
the VM that its hashes are on. -/
structure Store (α : Type) where
  maps : List (Option (Map α))
  stack : Stack α
  hashStack : Stack α

/-- The map at an address, unless it was freed. -/
def Store.live (store : Store α) (addr : Nat) : Option (Map α) := store.maps[addr]?.join

/-- The store with another map at an address, or with none. -/
def Store.put (store : Store α) (addr : Nat) (slot : Option (Map α)) : Store α :=
  { store with maps := store.maps.set addr slot }

/-- The store with one map more. -/
def Store.push (store : Store α) (map : Map α) : Store α :=
  { store with maps := store.maps ++ [some map] }

/-- What runs on a store logs the address of every freed map that it touches. -/
abbrev Counted (α β : Type) := Proc (Store α) Nat β

namespace Map

def values (map : Map α) : List α := map.entries.map MapEntry.value

/-- The value of the entry at a place. -/
def valueAt (map : Map α) (index : Nat) : Option α := (map.entryAt index).map MapEntry.value

end Map

namespace Counted

variable {α β : Type}

def load (addr : Nat) : Counted α (Map α) := do
  match ← Proc.read fun store => store.live addr with
  | some map => pure map
  | none => do
    Proc.emit addr
    Proc.abort

def save (addr : Nat) (map : Map α) : Counted α Unit :=
  Proc.write fun store => store.put addr (some map)

/-- `handlebars_talloc_free` -/
def free (addr : Nat) : Counted α Unit :=
  Proc.write fun store => store.put addr none

def allocate (map : Map α) : Counted α Nat := do
  let addr ← Proc.read fun store => store.maps.length
  Proc.write fun store => store.push map
  pure addr

/-- The result of a function on a map that touches no count. -/
def lift : MapResult β → Counted α β
  | .ok value => pure value
  | .error (.threw _) => Proc.throw
  | .error _ => Proc.abort

/-- `handlebars_map_addref` -/
def addref (addr : Nat) : Counted α Unit := do
  let map ← load addr
  save addr map.addref

section Held

/-! What values hold: the address of a map, or no map. -/

variable (held : α → Option Nat) (hash : StringHash)

/-- `handlebars_value_value` into a cell that is null. -/
def hold (value : α) : Counted α Unit :=
  match held value with
  | some addr => addref addr
  | none => pure ()

def holdAll : List α → Counted α Unit
  | [] => pure ()
  | value :: rest => do
    hold held value
    holdAll rest

/-- `handlebars_value_dtor`, given `handlebars_map_delref`. -/
def dropWith (delref : Nat → Counted α Unit) (value : α) : Counted α Unit :=
  match held value with
  | some addr => delref addr
  | none => pure ()

def dropAllWith (delref : Nat → Counted α Unit) : List α → Counted α Unit
  | [] => pure ()
  | value :: rest => do
    dropWith held delref value
    dropAllWith delref rest

/-- `handlebars_map_delref` and `handlebars_map_dtor`, nested at most so deep. -/
def delrefWithin : Nat → Nat → Counted α Unit
  | 0, _ => Proc.exhaust
  | depth + 1, addr => do
    let map ← load addr
    match map.delref with
    | some kept => save addr kept
    | none => do
      save addr { map with refcount := 0 }
      dropAllWith held (delrefWithin depth) map.values
      free addr

/-- `handlebars_map_delref`: maps that hold each other are no more than there are. -/
def delref (addr : Nat) : Counted α Unit := do
  let depth ← Proc.read fun store => store.maps.length
  delrefWithin held (depth + 1) addr

/-- `handlebars_value_dtor` -/
def drop (value : α) : Counted α Unit := dropWith held (delref held) value

/-- `handlebars_map_copy_ctor`, whose entries hold what those of the map hold. -/
def copyCtorAt (addr capacity : Nat) : Counted α Nat := do
  let map ← load addr
  let copy ← lift (Map.copyCtor hash map capacity)
  holdAll held map.values
  allocate copy

/-- `handlebars_map_rehash` -/
def rehashAt (addr : Nat) (force : Bool) : Counted α Nat := do
  let map ← load addr
  if map.needsRehash force then do
    let copy ← copyCtorAt held hash addr (2 ^ Map.chooseVecCapacityLog2 (map.i + 1))
    Proc.when (map.refcount ≥ 1) (addref copy)
    delref held addr
    pure copy
  else pure addr

/-- `map_add_at_table_offset` -/
def insertAt (addr : Nat) (key : Str) (value : α) (offset : Nat) : Counted α Unit := do
  let map ← load addr
  let after ← lift (map.addAtTableOffset key value offset)
  save addr after
  hold held value

/-- `handlebars_map_add` after its rehash. -/
def addRehashed (key : Str) (value : α) (addr : Nat) : Counted α Nat := do
  let map ← load addr
  let o ← lift (map.findEntry hash key)
  if o.entry.isSome || !o.emptyFound then Proc.throw
  else do
    insertAt held addr key value o.emptyOffset
    pure addr

/-- `handlebars_map_add` -/
def addAt (addr : Nat) (key : Str) (value : α) : Counted α Nat := do
  let addr ← rehashAt held hash addr false
  addRehashed held hash key value addr

/-- `handlebars_map_find` -/
def findAt (addr : Nat) (key : Str) : Counted α (Option α) := do
  let map ← load addr
  lift (map.find hash key)

/-- `handlebars_value_value` into the entry at a place: what was there is released first. -/
def assignAt (addr index : Nat) (value : α) : Counted α Unit := do
  let map ← load addr
  match map.valueAt index with
  | some old => drop held old
  | none => pure ()
  hold held value
  let map ← load addr
  save addr { map with
    vec := map.vec.modify index (Option.map fun entry => { entry with value := value }) }

/-- `handlebars_map_update` after its rehash. -/
def updateRehashed (key : Str) (value : α) (addr : Nat) : Counted α Nat := do
  let map ← load addr
  let o ← lift (map.findEntry hash key)
  match o.entry with
  | some (_, index) => do
    assignAt held addr index value
    pure addr
  | none =>
    if o.emptyFound then do
      insertAt held addr key value o.emptyOffset
      pure addr
    else Proc.throw

/-- `handlebars_map_update` -/
def updateAt (addr : Nat) (key : Str) (value : α) : Counted α Nat := do
  let addr ← rehashAt held hash addr false
  updateRehashed held hash key value addr

end Held

end Counted

namespace Store

variable {α : Type} {store : Store α} {addr other : Nat}

theorem lt_of_live (live : store.live addr = some map) : addr < store.maps.length :=
  (List.getElem?_eq_some_iff.mp (Option.join_eq_some_iff.mp live)).1

theorem live_put_self (bound : addr < store.maps.length) (slot : Option (Map α)) :
    (store.put addr slot).live addr = slot := by
  unfold live put
  rw [List.getElem?_set_self bound]
  rfl

theorem live_put_other (different : other ≠ addr) (slot : Option (Map α)) :
    (store.put addr slot).live other = store.live other := by
  unfold live put
  rw [List.getElem?_set_ne (Ne.symm different)]

theorem live_push_self (map : Map α) : (store.push map).live store.maps.length = some map := by
  unfold live push
  rw [List.getElem?_append_right (Nat.le_refl _), Nat.sub_self]
  rfl

theorem live_push_other (bound : addr < store.maps.length) (map : Map α) :
    (store.push map).live addr = store.live addr := by
  unfold live push
  rw [List.getElem?_append_left bound]

@[simp] theorem length_put (slot : Option (Map α)) :
    (store.put addr slot).maps.length = store.maps.length := List.length_set

@[simp] theorem length_push (map : Map α) :
    (store.push map).maps.length = store.maps.length + 1 := by
  unfold push
  rw [List.length_append, List.length_singleton]

end Store

namespace Counted

variable {α : Type} {store : Store α} {addr : Nat} {map : Map α}

theorem load_live (live : store.live addr = some map) :
    load addr store = (.ok map store, []) := by
  unfold load
  rw [Proc.bind_read, live]
  rfl

/-- A freed map cannot be touched. -/
theorem load_freed (freed : store.live addr = none) :
    load addr store = (.aborted store, [addr]) := by
  unfold load
  rw [Proc.bind_read, freed]
  rfl

theorem addref_live (live : store.live addr = some map) :
    addref addr store = (.ok () (store.put addr (some map.addref)), []) := by
  unfold addref
  rw [Proc.bind_ran (load_live live)]
  rfl

theorem lift_ok {result : MapResult β} {value : β} (success : result = .ok value) :
    (lift result : Counted α β) = pure value := by
  rw [success]
  rfl

end Counted

end HandlebarsC
