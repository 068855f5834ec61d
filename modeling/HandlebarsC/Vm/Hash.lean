import HandlebarsC.Map.Owned

/-!
The opcodes that make a hash, on maps that are counted.
-/

namespace HandlebarsC

open Effect

/-- A cell of a stack: a map, or a value that is none. -/
inductive MapCell (ω : Type) where
  | map (addr : Nat)
  | other (value : ω)
  deriving DecidableEq, Repr

/-- The map that a cell holds. -/
def MapCell.held : MapCell ω → Option Nat
  | .map addr => some addr
  | .other _ => none

/-- The two stacks. -/
inductive Row where
  | stack
  | hashStack
  deriving DecidableEq, Repr

/-- The stack with a cell more on top. -/
def Stack.with (stack : Stack α) (cell : α) : Stack α := { stack with v := cell :: stack.v }

@[simp] theorem Stack.count_with (stack : Stack α) (cell : α) :
    (stack.with cell).count = stack.count + 1 := rfl

@[simp] theorem Stack.protect_with (stack : Stack α) (cell : α) :
    (stack.with cell).protect = stack.protect := rfl

theorem Stack.pop_with (stack : Stack α) (cell : α) :
    (stack.with cell).pop =
      if stack.count + 1 < stack.protect then .refused else .some cell stack := rfl

/-- The stack with these cells more, the first of them on top. -/
def Stack.withAll (stack : Stack α) (cells : List α) : Stack α :=
  { stack with v := cells ++ stack.v }

@[simp] theorem Stack.count_withAll (stack : Stack α) (cells : List α) :
    (stack.withAll cells).count = stack.count + cells.length := by
  rw [count, count, withAll, List.length_append, Nat.add_comm]

namespace Store

variable {α : Type}

def row (store : Store α) : Row → Stack α
  | .stack => store.stack
  | .hashStack => store.hashStack

def setRow (store : Store α) (stack : Stack α) : Row → Store α
  | .stack => { store with stack := stack }
  | .hashStack => { store with hashStack := stack }

@[simp] theorem row_setRow (store : Store α) (stack : Stack α) (row : Row) :
    (store.setRow stack row).row row = stack := by
  cases row <;> rfl

theorem row_setRow_other {row other : Row} (store : Store α) (stack : Stack α) (different : other ≠ row) :
    (store.setRow stack row).row other = store.row other := by
  cases row <;> cases other <;> first | rfl | exact absurd rfl different

@[simp] theorem maps_setRow (store : Store α) (stack : Stack α) (row : Row) :
    (store.setRow stack row).maps = store.maps := by
  cases row <;> rfl

@[simp] theorem live_setRow (store : Store α) (stack : Stack α) (row : Row) (addr : Nat) :
    (store.setRow stack row).live addr = store.live addr := by
  cases row <;> rfl

end Store

namespace Map

variable {α : Type} {map after : Map α} {hash : StringHash}

/-- The count of references has no part in the order of a map. -/
theorem Intact.counted (intact : Intact hash map) (refcount : Nat) :
    Intact hash (map.counted refcount) := by
  obtain ⟨⟨inside, counted, pointed, live, reached, distinct⟩, sized, inIteration, used⟩ := intact
  exact ⟨⟨inside, counted, pointed, live, reached, distinct⟩, sized, inIteration, used⟩

/-- What a new entry leaves as it was, and what it moves by one. -/
theorem addAtTableOffset_keeps {value : α}
    (added : map.addAtTableOffset key value offset = .ok after) :
    after.refcount = map.refcount ∧ after.vecCapacity = map.vecCapacity ∧
      after.tableCapacity = map.tableCapacity ∧ after.i = map.i + 1 ∧
      after.vecOffset = map.vecOffset + 1 := by
  unfold addAtTableOffset at added
  split at added
  · cases added
    exact ⟨rfl, List.length_set, List.length_set, rfl, rfl⟩
  · cases added

end Map

namespace Counted

variable {ω : Type} (hash : StringHash)

/-- `PUSH` -/
def pushCell (row : Row) (cell : MapCell ω) : Counted (MapCell ω) Unit := do
  match ← Proc.read fun store => (store.row row).push cell with
  | some stack => do
    Proc.write fun store => store.setRow stack row
    hold MapCell.held cell
  | none => Proc.throw

/-- `POP`, and `HBS_ASSERT` of its success. -/
def popCell (row : Row) : Counted (MapCell ω) (MapCell ω) := do
  match ← Proc.read fun store => (store.row row).pop with
  | .none => Proc.abort
  | .refused => Proc.throw
  | .some cell rest => do
    Proc.write fun store => store.setRow rest row
    hold MapCell.held cell
    drop MapCell.held cell
    pure cell

/-- `accept_push_hash` -/
def acceptPushHash : Counted (MapCell ω) Unit := do
  let map ← lift (Map.ctor 4)
  let addr ← allocate map
  hold MapCell.held (.map addr)
  pushCell .hashStack (.map addr)
  drop MapCell.held (.map addr)

/-- `accept_assign_to_hash` after its pops. -/
def assignPopped (key : Str) (value : MapCell ω) : MapCell ω → Counted (MapCell ω) Unit
  | .map addr => do
    let map ← updateAt MapCell.held hash addr key value
    hold MapCell.held (.map map)
    drop MapCell.held (.map addr)
    pushCell .hashStack (.map map)
    drop MapCell.held value
    drop MapCell.held (.map map)
  | .other _ => Proc.abort

/-- `accept_assign_to_hash` -/
def acceptAssignToHash (key : Str) : Counted (MapCell ω) Unit := do
  let hashCell ← popCell .hashStack
  let value ← popCell .stack
  assignPopped hash key value hashCell

/-- `accept_pop_hash` -/
def acceptPopHash : Counted (MapCell ω) Unit := do
  let hashCell ← popCell .hashStack
  pushCell .stack hashCell
  drop MapCell.held hashCell

def pushAll : List (MapCell ω) → Counted (MapCell ω) Unit
  | [] => pure ()
  | value :: rest => do
    pushCell .stack value
    pushAll rest

def assignAll : List Str → Counted (MapCell ω) Unit
  | [] => pure ()
  | key :: rest => do
    acceptAssignToHash hash key
    assignAll rest

/-- The opcodes of `handlebars_compiler_accept_hash`: the last value is on top, and its key is
the first. -/
def buildHash (pairs : List (Str × MapCell ω)) : Counted (MapCell ω) Unit := do
  acceptPushHash
  pushAll (pairs.map (·.2))
  assignAll hash (pairs.map (·.1)).reverse
  acceptPopHash

theorem Quietly.row {α : Type} {addr : Nat} {store after : Store α} (quiet : Quietly addr store after)
    (row : Row) : after.row row = store.row row := by
  cases row with
  | stack => exact quiet.stack
  | hashStack => exact quiet.hashStack

section Steps

variable {hash} {addr : Nat} {map : Map (MapCell ω)} {store : Store (MapCell ω)} {cells : List (MapCell ω)}
  {cell : MapCell ω} {row : Row}

theorem holders_map : holders MapCell.held (.map addr :: cells) addr = holders MapCell.held cells addr + 1 :=
  holders_cons_self (show (MapCell.map addr : MapCell ω).held = some addr from rfl)

/-- A cell can be pushed where there is room. -/
theorem pushCell_iff (owned : Owned MapCell.held addr map store cells)
    (there : ∀ other, cell.held = some other → ∃ found, store.live other = some found)
    (few : holders MapCell.held cells addr < 255) :
    (pushCell row cell).YieldsIff ((store.row row).count < Stack.capacity)
      (fun _ after => Owned MapCell.held addr map after (cell :: cells) ∧
        Quietly addr (store.setRow ((store.row row).with cell) row) after) store := by
  unfold pushCell Stack.push
  by_cases room : (store.row row).count < Stack.capacity
  · refine Proc.YieldsIff.congr (Proc.Yields.iff_true ?_) (iff_of_true trivial room)
    unfold Proc.Yields
    rw [Proc.bind_read, if_pos room]
    dsimp only
    rw [Proc.bind_write]
    refine hold_yields (owned.of_maps (Store.maps_setRow _ _ _)) (fun other holds => ?_) few
    rw [Store.live_setRow]
    exact there other holds
  · refine Proc.YieldsIff.congr (Proc.yieldsIff_false ?_) (iff_of_false id room)
    intro value after
    rw [Proc.bind_read, if_neg room]
    nofun

/-- The cell on top can be popped where it is not below what is protected, and the variable it
goes to then holds what it held. -/
theorem popCell_iff (owned : Owned MapCell.held addr map store cells) (member : cell ∈ cells)
    (few : holders MapCell.held cells addr < 254) {rest : Stack (MapCell ω)}
    (top : store.row row = rest.with cell) :
    (popCell row).YieldsIff (rest.protect ≤ rest.count + 1)
      (fun popped after => popped = cell ∧ Owned MapCell.held addr map after cells ∧
        Quietly addr (store.setRow rest row) after) store := by
  unfold popCell
  by_cases room : rest.protect ≤ rest.count + 1
  · refine Proc.YieldsIff.congr (Proc.Yields.iff_true ?_) (iff_of_true trivial room)
    unfold Proc.Yields
    have popped : (store.row row).pop = .some cell rest := by
      rw [top, Stack.pop_with, if_neg (by omega)]
    rw [Proc.bind_read, popped]
    dsimp only
    rw [Proc.bind_write]
    have start : Owned MapCell.held addr map (store.setRow rest row) cells :=
      owned.of_maps (Store.maps_setRow _ _ _)
    refine Proc.yields_bind (hold_yields start (start.there member) (by omega)) ?_
    rintro _ between ⟨held, quiet⟩
    refine Proc.yields_bind (drop_yields held ?_ few) ?_
    · intro other holds
      exact holders_pos.mpr ⟨cell, member, holds⟩
    · rintro _ after ⟨left, quietToo⟩
      exact Proc.yields_pure ⟨rfl, left, quiet.trans quietToo⟩
  · refine Proc.YieldsIff.congr (Proc.yieldsIff_false ?_) (iff_of_false id room)
    intro value after
    have refused : (store.row row).pop = .refused := by
      rw [top, Stack.pop_with, if_pos (by omega)]
    rw [Proc.bind_read, refused]
    nofun

/-- A hash in the making: the map that `push_hash` made holds what is `done`, in order, and is
held once; the values that are `left` are still to come. -/
structure Made (hash : StringHash) (before : Store (MapCell ω)) (map : Map (MapCell ω))
    (done : List (Str × MapCell ω)) (left : List (MapCell ω)) (store : Store (MapCell ω)) : Prop where
  intact : Map.Intact hash map
  pairs : map.pairs = done
  vec : map.vecCapacity = 4
  table : map.tableCapacity = 11
  dense : map.vecOffset = map.i
  owned : Owned MapCell.held before.maps.length map store
    (.map before.maps.length :: (left ++ done.map (·.2)))
  apart : ∀ value ∈ left ++ done.map (·.2), value.held ≠ some before.maps.length
  same : ∀ other ≠ before.maps.length,
    (store.live other).map (Map.counted · 0) = (before.live other).map (Map.counted · 0)
  length : store.maps.length = before.maps.length + 1

section Made

variable {before : Store (MapCell ω)} {done : List (Str × MapCell ω)} {left : List (MapCell ω)} {key : Str}
  {value : MapCell ω}

theorem Made.sole (made : Made hash before map done left store) :
    holders MapCell.held (.map before.maps.length :: (left ++ done.map (·.2))) before.maps.length = 1 := by
  rw [holders_map, holders_eq_zero.mpr made.apart]

theorem Made.live (made : Made hash before map done left store) :
    store.live before.maps.length = some (map.counted 1) := by
  have own := made.owned.own
  rwa [made.sole] at own

theorem Made.count (made : Made hash before map done left store) : map.i = done.length := by
  rw [made.intact.valid.counted, ← made.pairs, Map.pairs, List.length_map]

/-- The map is replaced when a fifth entry comes. -/
theorem Made.needsRehash (made : Made hash before map done left store) (within : done.length ≤ 4) :
    (map.counted 1).needsRehash false = decide (done.length = 4) := by
  unfold Map.needsRehash Map.loadFactor
  change (!map.isInIteration && (false || decide (1 > 1) || map.vecOffset == map.vecCapacity ||
    decide (map.i * 100 / map.tableCapacity > Map.maxLoadFactor))) = _
  rw [made.intact.isInIteration, made.dense, made.vec, made.table, made.count]
  have light : ¬done.length * 100 / 11 > Map.maxLoadFactor := by
    change ¬done.length * 100 / 11 > 60
    omega
  rw [decide_eq_false light]
  simp [BEq.beq]

/-- An entry goes to the end of the map, which stays where it is. -/
theorem Made.update (made : Made hash before map done (value :: left) store)
    (within : done.length < 4) (absent : ∀ pair ∈ done, stringEq hash pair.1 key = false) :
    (updateAt MapCell.held hash before.maps.length key value).Yields (fun addr after =>
      addr = before.maps.length ∧ ∃ longer,
        (Map.Intact hash longer ∧ longer.pairs = done ++ [(key, value)] ∧ longer.vecCapacity = 4 ∧
          longer.tableCapacity = 11 ∧ longer.vecOffset = longer.i) ∧
        Owned MapCell.held before.maps.length longer after
          (value :: .map before.maps.length :: (value :: left ++ done.map (·.2))) ∧
        Quietly before.maps.length store after) store := by
  have calm : (map.counted 1).needsRehash false = false := by
    rw [made.needsRehash (Nat.le_of_lt within), decide_eq_false (Nat.ne_of_lt within)]
  have rehashed : rehashAt MapCell.held hash before.maps.length false store =
      (.ok before.maps.length store, []) := by
    unfold rehashAt
    rw [Proc.bind_ran (load_live made.live), calm]
    rfl
  have roomy : (map.counted 1).vecOffset < (map.counted 1).vecCapacity := by
    change map.vecOffset < map.vecCapacity
    rw [made.dense, made.count, made.vec]
    exact within
  have absentKey : Map.Absent hash (map.counted 1) key := by
    refine Map.absent_iff_pairs.mpr ?_
    change ∀ pair ∈ map.pairs, _
    rw [made.pairs]
    exact absent
  obtain ⟨ret, longer, found, noEntry, emptyFound, added, intact, pairs⟩ :=
    (made.intact.counted 1).insert roomy absentKey value
  obtain ⟨refcount, vec, table, count, offset⟩ := Map.addAtTableOffset_keeps added
  have bound := Store.lt_of_live made.live
  have kept : longer.counted 1 = longer := by
    rw [← show longer.refcount = 1 from refcount]
    rfl
  have saved : Owned MapCell.held before.maps.length longer
      (store.put before.maps.length (some longer))
      (.map before.maps.length :: (value :: left ++ done.map (·.2))) := by
    constructor
    · rw [Store.live_put_self bound, made.sole, kept]
    · intro other different occurs
      rw [Store.live_put_other different]
      exact made.owned.others other different occurs
  have quiet : Quietly before.maps.length store (store.put before.maps.length (some longer)) :=
    ⟨SameBut.put fun different => absurd rfl different, rfl, rfl⟩
  have inserted : (insertAt MapCell.held before.maps.length key value ret.emptyOffset).Yields
      (fun _ after => Owned MapCell.held before.maps.length longer after
          (value :: .map before.maps.length :: (value :: left ++ done.map (·.2))) ∧
        Quietly before.maps.length store after) store := by
    refine Proc.yields_ran (load_live made.live) ?_
    rw [lift_ok added, pure_bind]
    refine Proc.yields_ran rfl (Proc.yields_mono (hold_yields saved ?_ ?_) ?_)
    · exact saved.there (List.mem_cons_of_mem _ List.mem_cons_self)
    · rw [made.sole]
      decide
    · rintro _ after ⟨owned, later⟩
      exact ⟨owned, quiet.trans later⟩
  refine Proc.yields_ran rehashed (Proc.yields_ran (load_live made.live) ?_)
  rw [lift_ok found, pure_bind, noEntry]
  dsimp only
  rw [if_pos emptyFound]
  refine Proc.yields_bind inserted ?_
  rintro _ after ⟨owned, later⟩
  refine Proc.yields_pure ⟨rfl, longer, ⟨intact, ?_, ?_, ?_, ?_⟩, owned, later⟩
  · rw [pairs, ← made.pairs]
    rfl
  · exact vec.trans made.vec
  · exact table.trans made.table
  · rw [offset, count]
    exact congrArg (· + 1) made.dense

/-- The hash with another entry. -/
theorem Made.longer {longer : Map (MapCell ω)} {after : Store (MapCell ω)}
    (made : Made hash before map done (value :: left) store)
    (facts : Map.Intact hash longer ∧ longer.pairs = done ++ [(key, value)] ∧
      longer.vecCapacity = 4 ∧ longer.tableCapacity = 11 ∧ longer.vecOffset = longer.i)
    (owned : Owned MapCell.held before.maps.length longer after
      (.map before.maps.length :: (value :: left ++ done.map (·.2))))
    (same : ∀ other ≠ before.maps.length,
      (after.live other).map (Map.counted · 0) = (store.live other).map (Map.counted · 0))
    (length : after.maps.length = store.maps.length) :
    Made hash before longer (done ++ [(key, value)]) left after := by
  obtain ⟨intact, pairs, vec, table, dense⟩ := facts
  have moved : (value :: left ++ done.map (·.2)).Perm
      (left ++ (done ++ [(key, value)]).map (·.2)) := by
    rw [List.map_append, ← List.append_assoc]
    exact (List.perm_append_singleton value (left ++ done.map (·.2))).symm
  refine ⟨intact, pairs, vec, table, dense, owned.perm (moved.cons _), ?_, ?_, ?_⟩
  · intro cell member
    exact made.apart cell (moved.mem_iff.mpr member)
  · intro other different
    rw [same other different, made.same other different]
  · rw [length, made.length]

/-- What was assigned with the map full is lost: the popped cell is of a freed map. -/
theorem Made.update_full (made : Made hash before map done (value :: left) store)
    (full : done.length = 4) (result : Unit) (after : Store (MapCell ω)) :
    assignPopped hash key value (.map before.maps.length) store ≠ (.ok result after, []) := by
  have needed : (map.counted 1).needsRehash false = true := by
    rw [made.needsRehash (Nat.le_of_eq full), decide_eq_true full]
  have apart : ∀ cell ∈ (map.counted 1).values, cell.held ≠ some before.maps.length := by
    intro cell member
    refine made.apart cell (List.mem_append_right _ ?_)
    rw [← made.pairs, Map.pairs, List.map_map]
    exact member
  have freed := updateAt_frees MapCell.held hash made.live rfl apart needed key value
  have lost : (assignPopped hash key value (.map before.maps.length)).wp (fun _ _ => False)
      (fun _ => True) store := by
    unfold assignPopped
    rw [Proc.wp_bind]
    refine Proc.wp_mono freed (fun addr between freed => ?_) fun _ _ => trivial
    rw [Proc.wp_bind]
    refine Proc.wp_mono (Later.wp (keeps_hold MapCell.held (.map addr))) (fun _ last later => ?_)
      fun _ _ => trivial
    rw [Proc.wp_bind]
    have dropped : drop MapCell.held (.map before.maps.length) last =
        (.aborted last, [before.maps.length]) :=
      delref_freed MapCell.held (later.freed _ freed).2
    unfold Proc.wp
    rw [dropped]
    trivial
  intro ran
  unfold Proc.wp at lost
  rw [ran] at lost
  exact lost

/-- An assignment that has its two cells. -/
theorem assignPopped_iff (made : Made hash before map done (value :: left) store)
    (within : done.length ≤ 4) (absent : ∀ pair ∈ done, stringEq hash pair.1 key = false)
    (room : (store.row .hashStack).count < Stack.capacity) :
    (assignPopped hash key value (.map before.maps.length)).YieldsIff (done.length < 4)
      (fun _ after => (∃ longer, Made hash before longer (done ++ [(key, value)]) left after) ∧
        after.row .hashStack = (store.row .hashStack).with (.map before.maps.length) ∧
        after.row .stack = store.row .stack) store := by
  by_cases few : done.length < 4
  · refine Proc.YieldsIff.congr (Proc.Yields.iff_true ?_) (iff_of_true trivial few)
    have noMap := made.apart value List.mem_cons_self
    have one := made.sole
    have none := (holders_cons_other noMap).trans one
    unfold assignPopped
    refine Proc.yields_bind (made.update few absent) ?_
    rintro _ updated ⟨rfl, longer, facts, owned, quiet⟩
    refine Proc.yields_bind (hold_yields owned (owned.there ?_) (by omega)) ?_
    · exact List.mem_cons_of_mem _ List.mem_cons_self
    rintro _ held ⟨ownedTwice, quietHeld⟩
    refine Proc.yields_bind (drop_yields ownedTwice ?_ (by omega)) ?_
    · exact fun other holds => holders_pos.mpr
        ⟨_, List.mem_cons_of_mem _ List.mem_cons_self, holds⟩
    rintro _ dropped ⟨ownedOnce, quietDropped⟩
    have soFar := (quiet.trans quietHeld).trans quietDropped
    have roomStill : (dropped.row .hashStack).count < Stack.capacity := by
      rw [soFar.row]
      exact room
    have own : MapCell.map before.maps.length ∈
        value :: .map before.maps.length :: (value :: left ++ done.map (·.2)) :=
      List.mem_cons_of_mem _ List.mem_cons_self
    refine Proc.yields_bind ((pushCell_iff ownedOnce (ownedOnce.there own) (by omega)).1 roomStill) ?_
    rintro _ pushed ⟨ownedPushed, quietPushed⟩
    have swapped := ownedPushed.perm (List.Perm.swap _ _ _)
    have two := holders_map.trans (congrArg (· + 1) one)
    refine Proc.yields_bind (drop_yields swapped ?_ (by rw [two]; decide)) ?_
    · exact fun other holds => holders_pos.mpr
        ⟨value, List.mem_cons_of_mem _ (List.mem_cons_of_mem _ List.mem_cons_self), holds⟩
    rintro _ released ⟨ownedReleased, quietReleased⟩
    refine Proc.yields_mono (drop_yields ownedReleased ?_ (by omega)) ?_
    · exact fun other holds => holders_pos.mpr ⟨_, List.mem_cons_self, holds⟩
    rintro _ after ⟨ownedLast, quietLast⟩
    have later := (quietPushed.trans quietReleased).trans quietLast
    refine ⟨⟨longer, made.longer facts ownedLast (fun other different => ?_) ?_⟩, ?_, ?_⟩
    · rw [later.others other different, Store.live_setRow, soFar.others other different]
    · rw [later.length, Store.maps_setRow, soFar.length]
    · rw [later.row, Store.row_setRow, soFar.row]
    · rw [later.row, Store.row_setRow_other _ _ (by decide), soFar.row]
  · exact Proc.YieldsIff.congr (Proc.yieldsIff_false (made.update_full (by omega)))
      (iff_of_false id few)

/-- A pop leaves the hash as it was. -/
theorem Made.popped {rest : Stack (MapCell ω)} {after : Store (MapCell ω)}
    (made : Made hash before map done left store)
    (owned : Owned MapCell.held before.maps.length map after
      (.map before.maps.length :: (left ++ done.map (·.2))))
    (quiet : Quietly before.maps.length (store.setRow rest row) after) :
    Made hash before map done left after := by
  obtain ⟨intact, pairs, vec, table, dense, -, apart, same, length⟩ := made
  refine ⟨intact, pairs, vec, table, dense, owned, apart, fun other different => ?_, ?_⟩
  · rw [quiet.others other different, Store.live_setRow, same other different]
  · rw [quiet.length, Store.maps_setRow, length]

/-- The hash is on top of the hash stack, and on top of the stack is what is left of its values. -/
structure Building (hash : StringHash) (before : Store (MapCell ω)) (map : Map (MapCell ω))
    (done : List (Str × MapCell ω)) (left : List (MapCell ω)) (store : Store (MapCell ω)) : Prop
    extends Made hash before map done left store where
  hashStack : store.row .hashStack = (before.row .hashStack).with (.map before.maps.length)
  stack : store.row .stack = (before.row .stack).withAll left
  room : (before.row .hashStack).count < Stack.capacity

/-- `assign_to_hash` gives the top value to its key, unless the map has no place for it. -/
theorem Building.assign (building : Building hash before map done (value :: left) store)
    (within : done.length ≤ 4) (absent : ∀ pair ∈ done, stringEq hash pair.1 key = false) :
    (acceptAssignToHash hash key).YieldsIff
      ((before.row .hashStack).protect ≤ (before.row .hashStack).count + 1 ∧
        (before.row .stack).protect ≤ (before.row .stack).count + left.length + 1 ∧ done.length < 4)
      (fun _ after => ∃ longer, Building hash before longer (done ++ [(key, value)]) left after)
      store := by
  have one := building.sole
  unfold acceptAssignToHash
  refine (popCell_iff building.owned List.mem_cons_self (by omega) building.hashStack).bind ?_
  rintro _ first ⟨rfl, ownedFirst, quietFirst⟩
  have madeFirst := building.toMade.popped ownedFirst quietFirst
  have stackFirst : first.row .stack = ((before.row .stack).withAll left).with value := by
    rw [quietFirst.row, Store.row_setRow_other _ _ (by decide), building.stack]
    rfl
  have onStack : value ∈ MapCell.map before.maps.length :: (value :: left ++ done.map (·.2)) :=
    List.mem_cons_of_mem _ List.mem_cons_self
  have count : ((before.row .stack).withAll left).count = (before.row .stack).count + left.length := by
    rw [Stack.count_withAll]
  refine ((popCell_iff ownedFirst onStack (by omega) stackFirst).congr (by rw [count]; rfl)).bind ?_
  rintro _ second ⟨rfl, ownedSecond, quietSecond⟩
  have madeSecond := madeFirst.popped ownedSecond quietSecond
  have hashSecond : second.row .hashStack = before.row .hashStack := by
    rw [quietSecond.row, Store.row_setRow_other _ _ (by decide), quietFirst.row, Store.row_setRow]
  have stackSecond : second.row .stack = (before.row .stack).withAll left := by
    rw [quietSecond.row, Store.row_setRow]
  have room := building.room
  rw [← hashSecond] at room
  refine (assignPopped_iff madeSecond within absent room).mono ?_
  rintro _ after ⟨⟨longer, made⟩, hashStack, stack⟩
  exact ⟨longer, made, by rw [hashStack, hashSecond], by rw [stack, stackSecond], building.room⟩

/-- All keys get their values if the map has places for all of them. -/
theorem Building.assignAll {rest : List (Str × MapCell ω)}
    (building : Building hash before map done (rest.map (·.2)) store) (within : done.length ≤ 4)
    (distinct : (done ++ rest).Pairwise fun left right => stringEq hash left.1 right.1 = false) :
    (assignAll hash (rest.map (·.1))).YieldsIff
      (rest = [] ∨ (before.row .hashStack).protect ≤ (before.row .hashStack).count + 1 ∧
        (before.row .stack).protect ≤ (before.row .stack).count + 1 ∧
        done.length + rest.length ≤ 4)
      (fun _ after => ∃ longer, Building hash before longer (done ++ rest) [] after) store := by
  induction rest generalizing map done store with
  | nil =>
    refine Proc.YieldsIff.congr (Proc.Yields.iff_true ?_) (iff_of_true trivial (.inl rfl))
    rw [List.append_nil]
    exact Proc.yields_pure ⟨map, building⟩
  | cons pair rest ih =>
    have absent : ∀ earlier ∈ done, stringEq hash earlier.1 pair.1 = false := fun earlier member =>
      (List.pairwise_append.mp distinct).2.2 earlier member pair List.mem_cons_self
    rw [List.append_cons] at distinct ⊢
    have step := building.assign within absent
    by_cases few : done.length < 4
    · refine Proc.YieldsIff.congr (step.bind fun _ after ⟨longer, next⟩ => ih next ?_ distinct) ?_
      · rw [List.length_append, List.length_singleton]
        exact few
      · rw [List.length_append, List.length_singleton, List.length_cons, List.length_map]
        cases rest with
        | nil =>
          simp only [List.length_nil, reduceCtorEq, true_or, and_true, false_or]
          omega
        | cons other rest =>
          simp only [List.length_cons, reduceCtorEq, false_or]
          omega
    · have fails := step.2 fun holds => few holds.2.2
      refine Proc.YieldsIff.congr (Proc.yieldsIff_false (Proc.bind_not_silent fails))
        (iff_of_false id ?_)
      simp
      omega

theorem live_push {α : Type} {store : Store α} {other : Nat} (different : other ≠ store.maps.length)
    (map : Map α) : (store.push map).live other = store.live other := by
  by_cases bound : other < store.maps.length
  · exact Store.live_push_other bound map
  · have past : ∀ maps : List (Option (Map α)), maps.length ≤ other → maps[other]?.join = none :=
      fun maps far => by rw [List.getElem?_eq_none far]; rfl
    unfold Store.live
    rw [past store.maps (by omega), past (store.push map).maps (by rw [Store.length_push]; omega)]

/-- `push_hash` starts a hash where there is room for it. -/
theorem pushHash_iff (hash : StringHash) (before : Store (MapCell ω)) :
    (acceptPushHash (ω := ω)).YieldsIff ((before.row .hashStack).count < Stack.capacity)
      (fun _ after => ∃ map, Building hash before map [] [] after) before := by
  obtain ⟨map, created, intact, pairs⟩ := Map.Intact.ctor (α := MapCell ω) hash
    (show 4 ≤ Map.maxCapacity by decide)
  obtain ⟨-, entries, offset, vec, -, refcount, table, -⟩ := Map.Valid.ctor hash created
  have uncounted : map.counted 0 = map := by
    rw [← refcount]
    rfl
  have start : Owned MapCell.held before.maps.length map (before.push map) [] := by
    constructor
    · rw [Store.live_push_self, holders_nil, uncounted]
    · intro other _ occurs
      exact absurd occurs (Nat.lt_irrefl 0)
  have there : ∀ other, (MapCell.map before.maps.length : MapCell ω).held = some other →
      ∃ found, (before.push map).live other = some found := by
    intro other holds
    cases holds
    exact ⟨map, Store.live_push_self map⟩
  have rows : ∀ row, (before.push map).row row = before.row row := fun row => by cases row <;> rfl
  have allocated : (allocate map).Yields
      (fun addr after => addr = before.maps.length ∧ after = before.push map) before :=
    ⟨_, _, rfl, rfl, rfl⟩
  unfold acceptPushHash
  rw [lift_ok created, pure_bind]
  refine allocated.bind_iff ?_
  rintro _ _ ⟨rfl, rfl⟩
  refine (hold_yields start there (by rw [holders_nil]; decide)).bind_iff ?_
  rintro _ held ⟨ownedHeld, quietHeld⟩
  have own : MapCell.map before.maps.length ∈ [(MapCell.map before.maps.length : MapCell ω)] :=
    List.mem_singleton_self _
  have one : holders MapCell.held [(MapCell.map before.maps.length : MapCell ω)] before.maps.length = 1 :=
    holders_cons_self rfl
  have condition : (held.row .hashStack).count < Stack.capacity ↔
      (before.row .hashStack).count < Stack.capacity := by
    rw [quietHeld.row, rows]
  refine ((pushCell_iff ownedHeld (ownedHeld.there own) (by omega)).congr condition).known.andThen ?_
  rintro _ pushed ⟨room, ownedPushed, quietPushed⟩
  refine Proc.yields_mono (drop_yields ownedPushed ?_ (by omega)) ?_
  · exact fun other holds => holders_pos.mpr ⟨_, own, holds⟩
  rintro _ after ⟨owned, quietLast⟩
  have later := quietPushed.trans quietLast
  have count := intact.valid.counted
  rw [entries] at count
  refine ⟨map, ⟨intact, pairs, vec, ?_, offset.trans count.symm, owned, nofun, ?_, ?_⟩, ?_, ?_, room⟩
  · exact (Option.some.inj table).symm
  · intro other different
    rw [later.others other different, Store.live_setRow, quietHeld.others other different,
      live_push different]
  · rw [later.length, Store.maps_setRow, quietHeld.length, Store.length_push]
  · rw [later.row, Store.row_setRow, quietHeld.row, rows]
  · rw [later.row, Store.row_setRow_other _ _ (by decide), quietHeld.row, rows]
    rfl

theorem Building.pushAll {values : List (MapCell ω)}
    (building : Building hash before map [] left store)
    (live : ∀ value ∈ values, ∀ other, value.held = some other →
      ∃ found, before.live other = some found) :
    (pushAll values).YieldsIff
      (values = [] ∨ (before.row .stack).count + left.length + values.length ≤ Stack.capacity)
      (fun _ after => Building hash before map [] (values.reverse ++ left) after) store := by
  induction values generalizing left store with
  | nil =>
    have done : (Counted.pushAll ([] : List (MapCell ω))).Yields
        (fun _ after => Building hash before map [] left after) store := Proc.yields_pure building
    exact done.iff_true.congr (iff_of_true trivial (.inl rfl))
  | cons value rest ih =>
    have there : ∀ other, value.held = some other → ∃ found, store.live other = some found := by
      intro other holds
      obtain ⟨found, before⟩ := live value List.mem_cons_self other holds
      have different : other ≠ _ := Nat.ne_of_lt (Store.lt_of_live before)
      have same := building.same other different
      rw [before] at same
      obtain ⟨kept, liveStill, -⟩ := Option.map_eq_some_iff.mp same
      exact ⟨kept, liveStill⟩
    have noMap : value.held ≠ some before.maps.length := by
      intro holds
      obtain ⟨found, there⟩ := live value List.mem_cons_self _ holds
      exact absurd (Store.lt_of_live there) (Nat.lt_irrefl _)
    have one := building.sole
    have pushed : (pushCell .stack value).YieldsIff ((store.row .stack).count < Stack.capacity)
        (fun _ after => Building hash before map [] (value :: left) after) store := by
      refine (pushCell_iff building.owned there (by omega)).mono ?_
      rintro _ after ⟨owned, quiet⟩
      obtain ⟨⟨intact, pairs, vec, table, dense, -, apart, same, length⟩, hashStack, stack, room⟩ :=
        building
      refine ⟨⟨intact, pairs, vec, table, dense, owned.perm (List.Perm.swap _ _ _), ?_, ?_, ?_⟩,
        ?_, ?_, room⟩
      · intro cell member
        rcases List.mem_cons.mp member with rfl | earlier
        · exact noMap
        · exact apart cell earlier
      · intro other different
        rw [quiet.others other different, Store.live_setRow, same other different]
      · rw [quiet.length, Store.maps_setRow, length]
      · rw [quiet.row, Store.row_setRow_other _ _ (by decide), hashStack]
      · rw [quiet.row, Store.row_setRow, stack]
        rfl
    have condition : (store.row .stack).count = (before.row .stack).count + left.length := by
      rw [building.stack, Stack.count_withAll]
    rw [List.reverse_cons, List.append_assoc, List.singleton_append]
    refine (pushed.bind fun _ after next => ih next fun other member =>
      live other (List.mem_cons_of_mem _ member)).congr ?_
    rw [condition, List.length_cons, List.length_cons]
    cases rest with
    | nil =>
      simp only [List.length_nil, reduceCtorEq, true_or, and_true, false_or]
      omega
    | cons other rest =>
      simp only [List.length_cons, reduceCtorEq, false_or]
      omega

/-- `pop_hash` moves the hash to the stack. -/
theorem Building.pop (building : Building hash before map done [] store) :
    (acceptPopHash (ω := ω)).YieldsIff
      ((before.row .hashStack).protect ≤ (before.row .hashStack).count + 1 ∧
        (before.row .stack).count < Stack.capacity)
      (fun _ after => Made hash before map done [] after ∧
        after.row .hashStack = before.row .hashStack ∧
        after.row .stack = (before.row .stack).with (.map before.maps.length)) store := by
  have one := building.sole
  unfold acceptPopHash
  refine (popCell_iff building.owned List.mem_cons_self (by omega) building.hashStack).bind ?_
  rintro _ popped ⟨rfl, ownedPopped, quietPopped⟩
  have condition : popped.row .stack = before.row .stack := by
    rw [quietPopped.row, Store.row_setRow_other _ _ (by decide), building.stack]
    rfl
  refine ((pushCell_iff ownedPopped (ownedPopped.there List.mem_cons_self) (by omega)).congr
    (by rw [condition])).andThen ?_
  rintro _ pushed ⟨ownedPushed, quietPushed⟩
  refine Proc.yields_mono (drop_yields ownedPushed ?_ (by omega)) ?_
  · exact fun other holds => holders_pos.mpr ⟨_, List.mem_cons_self, holds⟩
  rintro _ after ⟨owned, quietLast⟩
  have later := quietPushed.trans quietLast
  obtain ⟨intact, pairs, vec, table, dense, -, apart, same, length⟩ := building.toMade
  refine ⟨⟨intact, pairs, vec, table, dense, owned, apart, fun other different => ?_, ?_⟩, ?_, ?_⟩
  · rw [later.others other different, Store.live_setRow, quietPopped.others other different,
      Store.live_setRow, same other different]
  · rw [later.length, Store.maps_setRow, quietPopped.length, Store.maps_setRow, length]
  · rw [later.row, Store.row_setRow_other _ _ (by decide), quietPopped.row, Store.row_setRow]
  · rw [later.row, Store.row_setRow, condition]

/-- All the cells there are: those of the stacks and those of the entries of maps. -/
def cellsOf (store : Store (MapCell ω)) : List (MapCell ω) :=
  store.stack.v ++ store.hashStack.v ++
    store.maps.flatMap fun slot => slot.elim [] Map.values

/-- What making a hash owes: no step touches a map that was freed, one map more is on the stack
that has each key with its value and nothing else, and its count is of the cells that hold it. -/
def BuildsHash (hash : StringHash) (pairs : List (Str × MapCell ω)) (before : Store (MapCell ω)) : Prop :=
  ∃ after addr map, buildHash hash pairs before = (.ok () after, []) ∧
    after.stack = before.stack.with (.map addr) ∧ after.hashStack = before.hashStack ∧
    after.live addr = some map ∧ map.count = pairs.length ∧
    (∀ pair ∈ pairs, map.find hash pair.1 = .ok (some pair.2)) ∧
    map.refcount = holders MapCell.held (cellsOf after) addr

/-- There is room on the stacks for a hash of so many values, and none of it is protected. -/
structure Room (store : Store (MapCell ω)) (count : Nat) : Prop where
  hashStack : store.hashStack.count < Stack.capacity
  hashOpen : store.hashStack.protect ≤ store.hashStack.count + 1
  stack : store.stack.count + max count 1 ≤ Stack.capacity
  stackOpen : 0 < count → store.stack.protect ≤ store.stack.count + 1

theorem mem_cellsOf {cell : MapCell ω} : cell ∈ cellsOf store ↔
    cell ∈ store.stack.v ∨ cell ∈ store.hashStack.v ∨
      ∃ addr map, store.live addr = some map ∧ cell ∈ map.values := by
  unfold cellsOf
  rw [List.mem_append, List.mem_append, or_assoc, List.mem_flatMap]
  refine or_congr_right (or_congr_right ?_)
  constructor
  · rintro ⟨slot, member, inside⟩
    cases slot with
    | none => cases inside
    | some map =>
      obtain ⟨addr, found⟩ := List.mem_iff_getElem?.mp member
      exact ⟨addr, map, by rw [Store.live, found]; rfl, inside⟩
  · rintro ⟨addr, map, live, inside⟩
    exact ⟨some map, List.mem_of_getElem? (Option.join_eq_some_iff.mp live), inside⟩

/-- The one cell of a finished hash is the one on the stack. -/
theorem Made.holders_one {after : Store (MapCell ω)} (made : Made hash before map done [] after)
    (grounded : ∀ cell ∈ cellsOf before, ∀ other, cell.held = some other →
      other < before.maps.length)
    (hashStack : after.hashStack = before.hashStack)
    (stack : after.stack = before.stack.with (.map before.maps.length)) :
    holders MapCell.held (cellsOf after) before.maps.length = 1 := by
  have old : ∀ cell ∈ cellsOf before, cell.held ≠ some before.maps.length := fun cell member holds =>
    Nat.lt_irrefl _ (grounded cell member _ holds)
  have others : ∀ cell ∈ cellsOf { after with stack := before.stack },
      cell.held ≠ some before.maps.length := by
    intro cell member
    rcases mem_cellsOf.mp member with below | onHash | ⟨addr, map, there, inside⟩
    · exact old cell (mem_cellsOf.mpr (.inl below))
    · refine old cell (mem_cellsOf.mpr (.inr (.inl ?_)))
      rw [← hashStack]
      exact onHash
    · by_cases here : addr = before.maps.length
      · subst here
        have own : after.live before.maps.length = some map := there
        rw [made.live] at own
        cases own
        refine made.apart cell ?_
        rw [← made.pairs, Map.pairs, List.map_map]
        exact inside
      · have same := made.same addr here
        have live : after.live addr = some map := there
        rw [live] at same
        obtain ⟨found, liveBefore, equal⟩ := Option.map_eq_some_iff.mp same.symm
        have values : (found.counted 0).values = (map.counted 0).values := congrArg Map.values equal
        exact old cell (mem_cellsOf.mpr (.inr (.inr ⟨addr, found, liveBefore, values ▸ inside⟩)))
  have split : cellsOf after =
      .map before.maps.length :: cellsOf { after with stack := before.stack } := by
    unfold cellsOf
    rw [stack]
    rfl
  rw [split, holders_map, holders_eq_zero.mpr others]

variable {pairs : List (Str × MapCell ω)}

theorem distinct_reverse
    (distinct : pairs.Pairwise fun left right => stringEq hash left.1 right.1 = false) :
    pairs.reverse.Pairwise fun left right => stringEq hash left.1 right.1 = false := by
  rw [List.pairwise_reverse]
  refine distinct.imp fun {left right} apart => ?_
  rwa [stringEq_comm]

/-- The run from the first opcode to the last. -/
theorem buildHash_iff
    (live : ∀ pair ∈ pairs, ∀ addr, pair.2.held = some addr → ∃ map, before.live addr = some map)
    (distinct : pairs.Pairwise fun left right => stringEq hash left.1 right.1 = false) :
    (buildHash hash pairs).YieldsIff (pairs.length ≤ 4 ∧ Room before pairs.length)
      (fun _ after => ∃ map, Made hash before map pairs.reverse [] after ∧
        after.row .hashStack = before.row .hashStack ∧
        after.row .stack = (before.row .stack).with (.map before.maps.length)) before := by
  have liveValues : ∀ value ∈ pairs.map (·.2), ∀ other, value.held = some other →
      ∃ found, before.live other = some found := by
    intro value member
    obtain ⟨pair, there, rfl⟩ := List.mem_map.mp member
    exact live pair there
  unfold buildHash
  rw [← List.map_reverse]
  have assigned : ∀ map store, Building hash before map [] ((pairs.map (·.2)).reverse ++ []) store →
      (assignAll hash (pairs.reverse.map (·.1))).YieldsIff
        (pairs.reverse = [] ∨ (before.row .hashStack).protect ≤ (before.row .hashStack).count + 1 ∧
          (before.row .stack).protect ≤ (before.row .stack).count + 1 ∧
          ([] : List (Str × MapCell ω)).length + pairs.reverse.length ≤ 4)
        (fun _ after => ∃ longer, Building hash before longer ([] ++ pairs.reverse) [] after)
        store := by
    intro map store building
    rw [List.append_nil, ← List.map_reverse] at building
    exact building.assignAll (Nat.zero_le 4) (distinct_reverse distinct)
  refine Proc.YieldsIff.congr ((pushHash_iff hash before).bind fun _ _ ⟨map, started⟩ =>
    (started.pushAll liveValues).bind fun _ pushed all =>
      (assigned map pushed all).bind fun _ _ ⟨longer, full⟩ =>
        full.pop.mono fun _ _ ⟨made, rows⟩ => ⟨longer, made, rows⟩) ?_
  simp only [List.map_eq_nil_iff, List.reverse_eq_nil_iff, List.length_map, List.length_reverse,
    List.length_nil, Nat.zero_add, Nat.add_zero]
  constructor
  · rintro ⟨hashRoom, pushes, assigns, hashOpen, top⟩
    cases pairs with
    | nil => exact ⟨Nat.zero_le 4, hashRoom, hashOpen, top, fun positive => absurd positive (by simp)⟩
    | cons pair rest =>
      simp only [reduceCtorEq, false_or] at pushes assigns
      refine ⟨assigns.2.2, hashRoom, hashOpen, ?_, fun _ => assigns.2.1⟩
      rw [Nat.max_eq_left (by simp)]
      exact pushes
  · rintro ⟨few, hashRoom, hashOpen, stack, stackOpen⟩
    have top : before.stack.count < Stack.capacity := by omega
    cases pairs with
    | nil => exact ⟨hashRoom, .inl rfl, .inl rfl, hashOpen, top⟩
    | cons pair rest =>
      refine ⟨hashRoom, .inr ?_, .inr ⟨hashOpen, stackOpen (by simp), few⟩, hashOpen, top⟩
      rwa [Nat.max_eq_left (by simp)] at stack

end Made

end Steps

/-- A hash is made as it should be exactly if it has at most four keys and the stacks have room. -/
theorem hash_built_iff {pairs : List (Str × MapCell ω)} {before : Store (MapCell ω)}
    (grounded : ∀ cell ∈ cellsOf before, ∀ addr, cell.held = some addr → addr < before.maps.length)
    (live : ∀ pair ∈ pairs, ∀ addr, pair.2.held = some addr → ∃ map, before.live addr = some map)
    (distinct : pairs.Pairwise fun left right => stringEq hash left.1 right.1 = false) :
    BuildsHash hash pairs before ↔ pairs.length ≤ 4 ∧ Room before pairs.length := by
  have run := buildHash_iff live distinct
  constructor
  · rintro ⟨after, -, -, ran, -⟩
    by_contra fails
    exact run.2 fails () after ran
  · intro holds
    obtain ⟨_, after, ran, map, made, hashStack, stack⟩ := run.1 holds
    refine ⟨after, before.maps.length, map.counted 1, ran, stack, hashStack, made.live, ?_, ?_, ?_⟩
    · exact made.count.trans List.length_reverse
    · intro pair member
      rw [(made.intact.counted 1).valid.find_eq]
      change Except.ok (StrMap.find hash map.pairs pair.1) = _
      rw [made.pairs]
      exact congrArg Except.ok
        (StrMap.find_of_mem (distinct_reverse distinct) (List.mem_reverse.mpr member))
    · exact (made.holders_one grounded hashStack stack).symm


/-- A store without maps, and with empty stacks. -/
def emptyStore : Store (MapCell ω) := ⟨[], .empty, .empty⟩

/-- Keys of different lengths, each with its own length. -/
def lengthPairs (count : Nat) : List (Str × MapCell Nat) :=
  (List.range count).map fun length => (List.replicate length 0, .other length)

theorem hash_built_four : BuildsHash (fun _ => 0) (lengthPairs 4) emptyStore :=
  (hash_built_iff (fun _ => 0) (fun _ member => absurd member List.not_mem_nil)
    (fun pair member addr holds => by
      obtain ⟨length, -, rfl⟩ := List.mem_map.mp member
      cases holds)
    (by decide)).mpr ⟨by decide, ⟨by decide, by decide, by decide, by decide⟩⟩

/-- With a fifth key the map is freed that the popped cell still holds. -/
theorem hash_built_five : ¬BuildsHash (fun _ => 0) (lengthPairs 5) emptyStore := by
  rintro ⟨after, -, -, ran, -⟩
  have touched : (buildHash (fun _ => 0) (lengthPairs 5) emptyStore).2 = [0] := by decide +kernel
  rw [ran] at touched
  cases touched

end Counted

end HandlebarsC
