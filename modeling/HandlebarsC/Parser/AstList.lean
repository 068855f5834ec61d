import Mathlib.Data.List.Basic
import Mathlib.Order.Interval.Finset.Nat
import HandlebarsC.Foundation.Linked
import HandlebarsC.Parser.Path

/-!
The lists of `handlebars_ast_list.c` over whole runs of their operations, and the sequences
that they stand for.
-/

namespace HandlebarsC.AstList

open Linked (Item Items)

variable {α : Type}

/-- `struct handlebars_ast_list`, with the memory that its items lie in. -/
structure Root (α : Type) where
  first : Option Nat
  last : Option Nat
  count : UInt64
  items : Items α

/-- Pointers are smaller. A walk over as many items does not end. -/
def addresses : Nat := 2 ^ 64

/-- `handlebars_ast_list_ctor` -/
def ctor (items : Items α) : Root α := ⟨none, none, 0, items⟩

/-- `handlebars_ast_list_count` -/
def count (list : Root α) : UInt64 := list.count

/-- The walk of `handlebars_ast_list_find`, which `handlebars_ast_list_remove` does for itself.
There is no result where it meets no item, or does not end. -/
def findFrom [DecidableEq α] (items : Items α) (astNode : α) :
    Nat → Option Nat → Option (Option Nat)
  | _, none => some none
  | 0, some _ => none
  | left + 1, some addr =>
    (items addr).bind fun item =>
      if item.data = astNode then some (some addr) else findFrom items astNode left item.next

/-- `handlebars_ast_list_find` -/
def find [DecidableEq α] (list : Root α) (astNode : α) : Option (Option Nat) :=
  findFrom list.items astNode addresses list.first

/-- `handlebars_ast_list_insert_after` -/
def insertAfter (list : Root α) (item newItem : Nat) : Option (Root α) :=
  (Linked.update list.items newItem fun new => { new with prev := some item }).bind fun items =>
  (items item).bind fun place =>
  (Linked.update items newItem fun new => { new with next := place.next }).bind fun items =>
  match place.next with
  | none =>
    (Linked.update items item fun place => { place with next := some newItem }).map fun items =>
      { list with last := some newItem, items := items }
  | some next =>
    (Linked.update items next fun next => { next with prev := some newItem }).bind fun items =>
    (Linked.update items item fun place => { place with next := some newItem }).map fun items =>
      { list with items := items }

/-- `handlebars_ast_list_insert_before` -/
def insertBefore (list : Root α) (item newItem : Nat) : Option (Root α) :=
  (list.items item).bind fun place =>
  (Linked.update list.items newItem fun new =>
    { new with prev := place.prev, next := some item }).bind fun items =>
  match place.prev with
  | none =>
    (Linked.update items item fun place => { place with prev := some newItem }).map fun items =>
      { list with first := some newItem, items := items }
  | some prev =>
    (Linked.update items prev fun prev => { prev with next := some newItem }).bind fun items =>
    (Linked.update items item fun place => { place with prev := some newItem }).map fun items =>
      { list with items := items }

/-- `handlebars_ast_list_append`, with the address of the item that it allocates -/
def append (list : Root α) (addr : Nat) (astNode : α) : Option (Root α) :=
  let list := { list with items := Linked.store list.items addr ⟨astNode, none, none⟩ }
  (match list.last with
  | none => some { list with first := some addr, last := some addr }
  | some last => insertAfter list last addr).map fun (list : Root α) =>
    { list with count := list.count + 1 }

/-- `handlebars_ast_list_prepend`, with the address of the item that it allocates -/
def prepend (list : Root α) (addr : Nat) (astNode : α) : Option (Root α) :=
  let list := { list with items := Linked.store list.items addr ⟨astNode, none, none⟩ }
  (match list.first with
  | none => some { list with first := some addr, last := some addr }
  | some first => insertBefore list first addr).map fun (list : Root α) =>
    { list with count := list.count + 1 }

/-- What leads to an item from in front of it leads behind it. -/
def unlinkPrev (list : Root α) (found : Item α) : Option (Root α) :=
  match found.prev with
  | none => some { list with first := found.next }
  | some prev =>
    (Linked.update list.items prev fun prev => { prev with next := found.next }).map fun items =>
      { list with items := items }

/-- What leads to an item from behind it leads in front of it. -/
def unlinkNext (list : Root α) (found : Item α) : Option (Root α) :=
  match found.next with
  | none => some { list with last := found.prev }
  | some next =>
    (Linked.update list.items next fun next => { next with prev := found.prev }).map fun items =>
      { list with items := items }

/-- `handlebars_ast_list_remove` -/
def remove [DecidableEq α] (list : Root α) (astNode : α) : Option (Bool × Root α) :=
  if list.first.isNone || list.last.isNone then some (false, list)
  else
    (findFrom list.items astNode addresses list.first).bind fun found =>
    match found with
    | none => some (false, list)
    | some found =>
      (list.items found).bind fun item =>
      (unlinkPrev list item).bind fun list =>
      (unlinkNext list item).map fun list =>
        (true, { list with count := list.count - 1, items := Linked.free list.items found })

/-! ### What one operation does -/

/-- A list with a counter. -/
def ofLinked (list : Linked α) (count : UInt64) : Root α :=
  ⟨list.first, list.last, count, list.items⟩

/-- The same list with an item in memory that does not belong to it. -/
def Root.withItem (list : Root α) (addr : Nat) (new : Item α) : Root α :=
  { list with items := Linked.store list.items addr new }

section Insertion

variable {list : Linked α} {front back : List (Nat × α)}

theorem insertAfter_eq (holds : Linked.Holds list (front ++ (place, data) :: back))
    (fresh : addr ∉ (front ++ (place, data) :: back).map Prod.fst) (new : Item α)
    (count : UInt64) :
    insertAfter ((ofLinked list count).withItem addr new) place addr =
      some (ofLinked (list.splice (some place) (Linked.head back none) addr new.data) count) := by
  obtain ⟨-, here, behind⟩ := (Linked.chain_append _ _).mp holds.chain
  rw [List.map_append, List.map_cons, List.mem_append, List.mem_cons] at fresh
  have apart : place ≠ addr := fun same => fresh (.inr (.inl same.symm))
  have elsewhere (item : Item α) (other : Nat) (member : other ∈ back.map Prod.fst) :
      Linked.store list.items addr item other = list.items other :=
    Linked.store_ne fun same => fresh (.inr (.inr (same ▸ member)))
  have there (item : Item α) : Linked.store list.items addr item place = _ :=
    (Linked.store_ne apart).trans here
  unfold insertAfter Root.withItem ofLinked
  dsimp only
  rw [Linked.update_store, Option.bind_some, there, Option.bind_some, Linked.update_store,
    Option.bind_some]
  cases back with
  | nil =>
    dsimp only [Linked.head, List.head?_nil, Option.map_none, Option.none_or]
    rw [Linked.update_eq (there _)]
    rfl
  | cons cell back =>
    obtain ⟨neighbour, -⟩ := behind
    have other : cell.1 ≠ place := by
      have distinct := holds.apart
      rw [List.map_append, List.map_cons, List.map_cons] at distinct
      intro same
      have inner := (List.nodup_append.mp distinct).2.1
      exact (List.nodup_cons.mp inner).1 (same ▸ List.mem_cons_self)
    rw [Linked.head_cons]
    dsimp only
    rw [Linked.update_eq ((elsewhere _ _ List.mem_cons_self).trans neighbour), Option.bind_some,
      Linked.update_eq ((Linked.modify_ne fun same => other (Option.some.inj same)).trans (there _))]
    rfl

theorem insertBefore_eq (holds : Linked.Holds list (front ++ (place, data) :: back))
    (fresh : addr ∉ (front ++ (place, data) :: back).map Prod.fst) (new : Item α)
    (count : UInt64) :
    insertBefore ((ofLinked list count).withItem addr new) place addr =
      some (ofLinked (list.splice (Linked.final none front) (some place) addr new.data) count) := by
  obtain ⟨before, here, -⟩ := (Linked.chain_append _ _).mp holds.chain
  rw [List.map_append, List.map_cons, List.mem_append, List.mem_cons] at fresh
  have apart : place ≠ addr := fun same => fresh (.inr (.inl same.symm))
  have there (item : Item α) : Linked.store list.items addr item place = _ :=
    (Linked.store_ne apart).trans here
  unfold insertBefore Root.withItem ofLinked
  dsimp only
  rw [there, Option.bind_some, Linked.update_store, Option.bind_some]
  dsimp only
  cases ends : Linked.final none front with
  | none =>
    dsimp only
    rw [Linked.update_eq (there _)]
    rfl
  | some prev =>
    have member := Linked.final_mem ends
    obtain ⟨neighbour, present⟩ := before.present member
    have other : prev ≠ place := by
      have distinct := holds.apart
      rw [List.map_append, List.map_cons] at distinct
      exact (List.nodup_append.mp distinct).2.2 _ member _ List.mem_cons_self
    have elsewhere : prev ≠ addr := fun same => fresh (.inl (same ▸ member))
    have outside : some prev ≠ some place := fun same => other (Option.some.inj same)
    dsimp only
    rw [Linked.update_eq ((Linked.store_ne elsewhere).trans present), Option.bind_some,
      Linked.update_eq ((Linked.modify_ne outside).trans (there _)), Linked.modify_comm (.inr outside)]
    rfl

/-- An item at the end. -/
theorem append_eq {cells : List (Nat × α)} (holds : Linked.Holds list cells)
    (fresh : addr ∉ cells.map Prod.fst) (data : α) (count : UInt64) :
    append (ofLinked list count) addr data =
      some (ofLinked (list.append addr data) (count + 1)) := by
  rw [Linked.append_eq_splice]
  obtain ⟨first, last, total, items⟩ := list
  cases cells using List.reverseRecOn with
  | nil =>
    obtain rfl : last = none := holds.last
    rfl
  | append_singleton front cell =>
    obtain rfl : last = some cell.1 := holds.last.trans (Linked.final_concat _ _ _)
    change (insertAfter ((ofLinked _ count).withItem addr _) cell.1 addr).map _ = _
    rw [insertAfter_eq holds fresh]
    rfl

/-- An item at the start. -/
theorem prepend_eq {cells : List (Nat × α)} (holds : Linked.Holds list cells)
    (fresh : addr ∉ cells.map Prod.fst) (data : α) (count : UInt64) :
    prepend (ofLinked list count) addr data =
      some (ofLinked (list.splice none list.first addr data) (count + 1)) := by
  obtain ⟨first, last, total, items⟩ := list
  cases cells with
  | nil =>
    obtain rfl : first = none := holds.first
    rfl
  | cons cell back =>
    obtain rfl : first = some cell.1 := holds.first
    rw [← List.nil_append (cell :: back)] at holds fresh
    change (insertBefore ((ofLinked _ count).withItem addr _) cell.1 addr).map _ = _
    rw [insertBefore_eq holds fresh]
    rfl

end Insertion

theorem unlinkPrev_eq {list : Root α} {found : Item α}
    (present : ∀ prev, found.prev = some prev → ∃ item, list.items prev = some item) :
    unlinkPrev list found = some { list with
      first := if found.prev.isNone then found.next else list.first
      items := Linked.modify list.items found.prev fun prev => { prev with next := found.next } } := by
  obtain ⟨data, next, prev⟩ := found
  cases prev with
  | none => rfl
  | some prev =>
    obtain ⟨item, here⟩ := present prev rfl
    unfold unlinkPrev
    dsimp only
    rw [Linked.update_eq here]
    rfl

theorem unlinkNext_eq {list : Root α} {found : Item α}
    (present : ∀ next, found.next = some next → ∃ item, list.items next = some item) :
    unlinkNext list found = some { list with
      last := if found.next.isNone then found.prev else list.last
      items := Linked.modify list.items found.next fun next => { next with prev := found.prev } } := by
  obtain ⟨data, next, prev⟩ := found
  cases next with
  | none => rfl
  | some next =>
    obtain ⟨item, here⟩ := present next rfl
    unfold unlinkNext
    dsimp only
    rw [Linked.update_eq here]
    rfl

section Removal

variable [DecidableEq α] {list : Linked α} {front back cells : List (Nat × α)}

/-- The walk finds the first item with the node. -/
theorem findFrom_eq {items : Items α} {prev : Option Nat} (chain : Linked.Chain items prev cells none)
    (astNode : α) (enough : cells.length ≤ left) :
    findFrom items astNode left (Linked.head cells none) =
      some ((cells.find? fun cell => cell.2 = astNode).map Prod.fst) := by
  induction cells generalizing prev left with
  | nil => cases left <;> rfl
  | cons cell cells ih =>
    obtain ⟨here, later⟩ := chain
    rw [List.length_cons] at enough
    obtain ⟨left, rfl⟩ : ∃ less, left = less + 1 := ⟨left - 1, by omega⟩
    rw [Linked.head_cons, findFrom, here, Option.bind_some, List.find?_cons]
    by_cases same : cell.2 = astNode
    · rw [if_pos same, decide_eq_true same]
      rfl
    · rw [if_neg same, decide_eq_false same]
      exact ih later (Nat.le_of_succ_le_succ enough)

theorem remove_absent (holds : Linked.Holds list cells) (small : cells.length ≤ addresses)
    (absent : astNode ∉ cells.map Prod.snd) (count : UInt64) :
    remove (ofLinked list count) astNode = some (false, ofLinked list count) := by
  have none : cells.find? (fun cell => cell.2 = astNode) = none := by
    rw [List.find?_eq_none]
    intro cell member same
    exact absent (of_decide_eq_true same ▸ List.mem_map_of_mem member)
  unfold remove
  split
  · rfl
  · have found := findFrom_eq holds.chain astNode small
    rw [none] at found
    change (findFrom list.items astNode addresses list.first).bind _ = _
    rw [holds.first, found]
    rfl

omit [DecidableEq α] in
theorem starts_some {cell : Nat × α} (holds : Linked.Holds list (front ++ cell :: back)) :
    list.first.isNone = false := by
  rw [holds.first, Linked.head_append]
  cases front <;> rfl

omit [DecidableEq α] in
theorem stops_some {cell : Nat × α} (holds : Linked.Holds list (front ++ cell :: back)) :
    list.last.isNone = false := by
  rw [holds.last, Linked.final_append, Linked.isNone_final_cons]

/-- The first item with the node goes. -/
theorem remove_present (holds : Linked.Holds list (front ++ (addr, astNode) :: back))
    (small : (front ++ (addr, astNode) :: back).length ≤ addresses)
    (first : astNode ∉ front.map Prod.snd) (count : UInt64) :
    ∃ item, list.items addr = some item ∧
      remove (ofLinked list count) astNode =
        some (true, ofLinked (list.unlink addr item) (count - 1)) ∧
      Linked.Holds (list.unlink addr item) (front ++ back) := by
  obtain ⟨before, here, behind⟩ := (Linked.chain_append _ _).mp holds.chain
  obtain ⟨item, present, -, -, unlinked⟩ := holds.unlink
  obtain rfl := Option.some.inj (present.symm.trans here)
  refine ⟨_, here, ?_, unlinked⟩
  have found : findFrom list.items astNode addresses list.first = some (some addr) := by
    have earlier : front.find? (fun cell => cell.2 = astNode) = none := by
      rw [List.find?_eq_none]
      intro cell member same
      exact first (of_decide_eq_true same ▸ List.mem_map_of_mem member)
    have here : ((addr, astNode) :: back).find? (fun cell => cell.2 = astNode) =
        some (addr, astNode) := List.find?_cons_of_pos (decide_eq_true rfl)
    rw [holds.first, findFrom_eq holds.chain astNode small, List.find?_append, earlier, here]
    rfl
  have neighbour (prev : Nat) (ends : Linked.final none front = some prev) :
      ∃ item, list.items prev = some item := before.present (Linked.final_mem ends)
  have follower (next : Nat) (begins : Linked.head back none = some next) :
      ∃ item, Linked.modify list.items (Linked.final none front)
        (fun prev => { prev with next := Linked.head back none }) next = some item := by
    have member := Linked.head_mem begins
    have other : Linked.final none front ≠ some next := by
      intro ends
      have distinct := holds.apart
      rw [List.map_append] at distinct
      exact (List.nodup_append.mp distinct).2.2 _ (Linked.final_mem ends) _
        (List.mem_cons_of_mem _ member) rfl
    rw [Linked.modify_ne other]
    exact behind.present member
  unfold remove ofLinked
  dsimp only
  rw [starts_some holds, stops_some holds, found]
  simp only [Bool.or_false, Bool.false_eq_true, if_false, Option.bind_some, here]
  rw [unlinkPrev_eq neighbour, Option.bind_some, unlinkNext_eq follower]
  rfl

end Removal

/-- The removal of `handlebars_ast_helper_prepare_path`, which leaves the counter to the list. -/
theorem remove_eq_astListRemove {list : Parser.AstList} {cells : List (Nat × Nat)}
    (holds : Linked.Holds list cells) (small : cells.length ≤ addresses) (node : Nat)
    (count : UInt64) :
    (remove (ofLinked list count) node).map Prod.snd =
      some (ofLinked (Parser.astListRemove list node)
        (if node ∈ cells.map Prod.snd then count - 1 else count)) := by
  by_cases member : node ∈ cells.map Prod.snd
  · obtain ⟨front, ⟨addr, _⟩, back, rfl, rfl, absent⟩ := Linked.exists_first member
    obtain ⟨item, present, removed, -⟩ := remove_present holds small absent count
    have enough : front.length < list.count := by
      rw [holds.count, List.length_append, List.length_cons]
      omega
    obtain ⟨other, same, found⟩ := holds.chain.search absent enough
    cases present.symm.trans same
    rw [removed, if_pos member]
    unfold Parser.astListRemove
    rw [starts_some holds, stops_some holds, holds.first, found]
    rfl
  · rw [remove_absent holds small member, if_neg member]
    unfold Parser.astListRemove
    rw [holds.first, holds.chain.search_absent member]
    split <;> rfl

/-! ### Runs -/

/-- The operations, with the addresses of the new items. What an inserted item holds in its links
does not matter. -/
inductive Op (α : Type) where
  | append (addr : Nat) (astNode : α)
  | prepend (addr : Nat) (astNode : α)
  | insertBefore (item addr : Nat) (new : Item α)
  | insertAfter (item addr : Nat) (new : Item α)
  | remove (astNode : α)

/-- A cell in front of the one with an address. -/
def insertBeforeAt (item : Nat) (cell : Nat × α) : List (Nat × α) → List (Nat × α)
  | [] => []
  | first :: rest =>
    if first.1 = item then cell :: first :: rest else first :: insertBeforeAt item cell rest

/-- A cell behind the one with an address. -/
def insertAfterAt (item : Nat) (cell : Nat × α) : List (Nat × α) → List (Nat × α)
  | [] => []
  | first :: rest =>
    if first.1 = item then first :: cell :: rest else first :: insertAfterAt item cell rest

namespace Op

def exec [DecidableEq α] (list : Root α) : Op α → Option (Root α)
  | .append addr astNode => AstList.append list addr astNode
  | .prepend addr astNode => AstList.prepend list addr astNode
  | .insertBefore item addr new => AstList.insertBefore (list.withItem addr new) item addr
  | .insertAfter item addr new => AstList.insertAfter (list.withItem addr new) item addr
  | .remove astNode => (AstList.remove list astNode).map Prod.snd

/-- The operation on a sequence. -/
def apply [DecidableEq α] (cells : List (Nat × α)) : Op α → List (Nat × α)
  | .append addr astNode => cells ++ [(addr, astNode)]
  | .prepend addr astNode => (addr, astNode) :: cells
  | .insertBefore item addr new => insertBeforeAt item (addr, new.data) cells
  | .insertAfter item addr new => insertAfterAt item (addr, new.data) cells
  | .remove astNode => cells.eraseP fun cell => cell.2 = astNode

/-- An insertion that the caller makes. -/
def inserts : Op α → Bool
  | .insertBefore .. | .insertAfter .. => true
  | _ => false

/-- A pointer to an item that is not in the list. -/
def Fresh (addr : Nat) (cells : List (Nat × α)) : Prop :=
  0 < addr ∧ addr < addresses ∧ addr ∉ cells.map Prod.fst

/-- Insertions are next to an item of the list. -/
def Fits (cells : List (Nat × α)) : Op α → Prop
  | .append addr _ | .prepend addr _ => Fresh addr cells
  | .insertBefore item addr _ | .insertAfter item addr _ =>
    item ∈ cells.map Prod.fst ∧ Fresh addr cells
  | .remove _ => True

instance (addr : Nat) (cells : List (Nat × α)) : Decidable (Fresh addr cells) :=
  inferInstanceAs (Decidable (_ ∧ _ ∧ _))

instance (cells : List (Nat × α)) : (op : Op α) → Decidable (op.Fits cells)
  | .append addr _ | .prepend addr _ => inferInstanceAs (Decidable (Fresh addr cells))
  | .insertBefore item addr _ | .insertAfter item addr _ =>
    inferInstanceAs (Decidable (item ∈ cells.map Prod.fst ∧ Fresh addr cells))
  | .remove _ => inferInstanceAs (Decidable True)

end Op

section Runs

variable [DecidableEq α]

def run (list : Root α) : List (Op α) → Option (Root α)
  | [] => some list
  | op :: ops => (op.exec list).bind fun list => run list ops

def applyAll (cells : List (Nat × α)) (ops : List (Op α)) : List (Nat × α) :=
  ops.foldl Op.apply cells

/-- Each operation fits the sequence that it finds. -/
def Allowed (cells : List (Nat × α)) : List (Op α) → Prop
  | [] => True
  | op :: ops => op.Fits cells ∧ Allowed (op.apply cells) ops

instance decidableAllowed (cells : List (Nat × α)) :
    (ops : List (Op α)) → Decidable (Allowed cells ops)
  | [] => inferInstanceAs (Decidable True)
  | op :: ops =>
    have := decidableAllowed (op.apply cells) ops
    inferInstanceAs (Decidable (op.Fits cells ∧ Allowed (op.apply cells) ops))

end Runs

/-- A well-formed list, and the sequence that it equals. -/
structure WellFormed (list : Root α) (cells : List (Nat × α)) : Prop where
  forward : Linked.Walk list.items Item.next list.first cells
  backward : Linked.Walk list.items Item.prev list.last cells.reverse
  firstPrev : ∀ addr item, list.first = some addr → list.items addr = some item → item.prev = none
  lastNext : ∀ addr item, list.last = some addr → list.items addr = some item → item.next = none
  together : list.first = none ↔ list.last = none

/-- A well-formed list that knows how many items it has. -/
structure Represents (list : Root α) (cells : List (Nat × α)) : Prop extends
    WellFormed list cells where
  counted : (count list).toNat = cells.length

/-- What holds of a list in every run: its links are right, and its counter is short by the
insertions. -/
structure Held (list : Root α) (cells : List (Nat × α)) (inserted : Nat) : Prop where
  linked : ∃ links : Linked α, list = ofLinked links list.count ∧ Linked.Holds links cells
  pointers : ∀ addr ∈ cells.map Prod.fst, 0 < addr ∧ addr < addresses
  counter : list.count + UInt64.ofNat inserted = UInt64.ofNat cells.length

theorem held_ctor (items : Items α) : Held (ctor items) [] 0 where
  linked := ⟨⟨none, none, 0, items⟩, rfl, rfl, rfl, rfl, trivial, List.nodup_nil⟩
  pointers := nofun
  counter := rfl

/-- Different pointers are fewer than there are addresses. -/
theorem Held.small {list : Root α} {cells : List (Nat × α)} (held : Held list cells inserted) :
    cells.length < addresses := by
  obtain ⟨links, -, holds⟩ := held.linked
  have inside : (cells.map Prod.fst).toFinset ⊆ Finset.Ioo 0 addresses := by
    intro addr member
    exact Finset.mem_Ioo.mpr (held.pointers addr (List.mem_toFinset.mp member))
  have few := Finset.card_le_card inside
  rw [List.toFinset_card_of_nodup holds.apart, List.length_map, Nat.card_Ioo] at few
  unfold addresses at few ⊢
  omega

/-- The links of a list are right whatever its counter says. -/
theorem Held.wellFormed {list : Root α} {cells : List (Nat × α)}
    (held : Held list cells inserted) : WellFormed list cells := by
  obtain ⟨links, same, holds⟩ := held.linked
  obtain ⟨total, rfl⟩ : ∃ total, list = ofLinked links total := ⟨_, same⟩
  have first : links.first = _ := holds.first
  have last : links.last = _ := holds.last
  refine ⟨?_, ?_, ?_, ?_, ?_⟩
  · change Linked.Walk links.items Item.next links.first cells
    rw [first]
    exact holds.chain.forward
  · change Linked.Walk links.items Item.prev links.last cells.reverse
    rw [last]
    exact holds.chain.backward
  · intro addr item starts present
    cases cells with
    | nil => cases first.symm.trans starts
    | cons cell rest =>
      cases first.symm.trans starts
      cases present.symm.trans holds.chain.1
      rfl
  · intro addr item stops present
    cases cells using List.reverseRecOn with
    | nil => cases last.symm.trans stops
    | append_singleton front cell =>
      rw [Linked.final_concat] at last
      cases last.symm.trans stops
      cases present.symm.trans ((Linked.chain_append _ _).mp holds.chain).2.1
      rfl
  · change links.first = none ↔ links.last = none
    rw [first, last]
    cases cells with
    | nil => exact iff_of_true rfl rfl
    | cons cell rest =>
      refine iff_of_false nofun fun empty => ?_
      have ends := Linked.isNone_final_cons none cell rest
      rw [empty] at ends
      cases ends

/-- The counter is right when nothing was inserted, or as much as makes it wrap around. -/
theorem Held.represents_iff {list : Root α} {cells : List (Nat × α)}
    (held : Held list cells inserted) :
    Represents list cells ↔ UInt64.ofNat inserted = 0 := by
  have counter := held.counter
  have small : cells.length < 2 ^ 64 := held.small
  constructor
  · intro represents
    have counted : list.count.toNat = cells.length := represents.counted
    rw [← counted, UInt64.ofNat_toNat] at counter
    exact UInt64.add_eq_left.mp counter
  · intro none
    rw [none, UInt64.add_zero] at counter
    refine ⟨held.wellFormed, ?_⟩
    rw [count, counter]
    exact UInt64.toNat_ofNat_of_lt' small

theorem insertBeforeAt_eq {front : List (Nat × α)} (absent : item ∉ front.map Prod.fst)
    (cell : Nat × α) (data : α) (back : List (Nat × α)) :
    insertBeforeAt item cell (front ++ (item, data) :: back) =
      front ++ cell :: (item, data) :: back := by
  induction front with
  | nil => exact if_pos rfl
  | cons first front ih =>
    rw [List.map_cons, List.mem_cons, not_or] at absent
    rw [List.cons_append, insertBeforeAt, if_neg (Ne.symm absent.1), ih absent.2]
    rfl

theorem insertAfterAt_eq {front : List (Nat × α)} (absent : item ∉ front.map Prod.fst)
    (cell : Nat × α) (data : α) (back : List (Nat × α)) :
    insertAfterAt item cell (front ++ (item, data) :: back) =
      front ++ (item, data) :: cell :: back := by
  induction front with
  | nil => exact if_pos rfl
  | cons first front ih =>
    rw [List.map_cons, List.mem_cons, not_or] at absent
    rw [List.cons_append, insertAfterAt, if_neg (Ne.symm absent.1), ih absent.2]
    rfl

theorem length_between (front back : List (Nat × α)) (cell : Nat × α) :
    (front ++ cell :: back).length = (front ++ back).length + 1 := by
  rw [List.length_append, List.length_append, List.length_cons, Nat.add_assoc]

/-- One more cell, which the counter counts or which was inserted. -/
theorem Held.grow {list : Root α} {front back : List (Nat × α)} {links : Linked α}
    (held : Held list (front ++ back) inserted) (fresh : Op.Fresh addr (front ++ back))
    (holds : Linked.Holds links (front ++ (addr, data) :: back))
    (counts : total + UInt64.ofNat more = list.count + UInt64.ofNat inserted + 1) :
    Held (ofLinked links total) (front ++ (addr, data) :: back) more where
  linked := ⟨links, rfl, holds⟩
  pointers := by
    intro other member
    simp only [List.map_append, List.map_cons, List.mem_append, List.mem_cons] at member
    rcases member with member | rfl | member
    · exact held.pointers other (by simp only [List.map_append, List.mem_append, member, true_or])
    · exact ⟨fresh.1, fresh.2.1⟩
    · exact held.pointers other (by simp only [List.map_append, List.mem_append, member, or_true])
  counter := by
    change total + _ = _
    rw [counts, held.counter, length_between, UInt64.ofNat_add]
    rfl

/-- One cell less, which the counter no longer counts. -/
theorem Held.shrink {front back : List (Nat × α)} {links shorter : Linked α}
    (held : Held (ofLinked links total) (front ++ cell :: back) inserted)
    (holds : Linked.Holds shorter (front ++ back)) :
    Held (ofLinked shorter (total - 1)) (front ++ back) inserted where
  linked := ⟨shorter, rfl, holds⟩
  pointers := by
    intro other member
    apply held.pointers other
    simp only [List.map_append, List.map_cons, List.mem_append, List.mem_cons] at member ⊢
    exact member.imp_right .inr
  counter := by
    have counter : total + UInt64.ofNat inserted = _ := held.counter
    rw [length_between, UInt64.ofNat_add] at counter
    change total - 1 + UInt64.ofNat inserted = _
    grind

section Runs

variable [DecidableEq α]

theorem add_one_right (left right : UInt64) : left + 1 + right = left + right + 1 := by
  rw [UInt64.add_assoc, UInt64.add_comm 1, ← UInt64.add_assoc]

/-- A removal takes the first cell of the node, where there is one. -/
theorem Held.remove {list : Root α} {cells : List (Nat × α)} (held : Held list cells inserted)
    (astNode : α) : ∃ after, (AstList.remove list astNode).map Prod.snd = some after ∧
      Held after (cells.eraseP fun cell => cell.2 = astNode) inserted := by
  have small := Nat.le_of_lt held.small
  obtain ⟨links, same, holds⟩ := held.linked
  obtain ⟨total, rfl⟩ : ∃ total, list = ofLinked links total := ⟨_, same⟩
  rcases List.exists_or_eq_self_of_eraseP (fun cell : Nat × α => cell.2 = astNode) cells with
    same | ⟨⟨addr, data⟩, front, back, earlier, here, rfl, same⟩
  · have absent : astNode ∉ cells.map Prod.snd := by
      intro member
      obtain ⟨cell, member, here⟩ := List.mem_map.mp member
      have shorter : (cells.eraseP fun cell => cell.2 = astNode).length = cells.length - 1 :=
        List.length_eraseP_of_mem member (decide_eq_true here)
      rw [same] at shorter
      have positive := List.length_pos_of_mem member
      omega
    refine ⟨_, congrArg (Option.map Prod.snd) (remove_absent holds small absent total), ?_⟩
    rw [same]
    exact held
  · obtain rfl : data = astNode := of_decide_eq_true here
    have absent : data ∉ front.map Prod.snd := by
      intro member
      obtain ⟨cell, member, here⟩ := List.mem_map.mp member
      exact earlier cell member (decide_eq_true here)
    obtain ⟨item, -, removed, shorter⟩ := remove_present holds small absent total
    refine ⟨_, congrArg (Option.map Prod.snd) removed, ?_⟩
    rw [same]
    exact held.shrink shorter

/-- Every operation that fits keeps the links right, and counts all cells but the inserted. -/
theorem Held.exec {list : Root α} {cells : List (Nat × α)} (held : Held list cells inserted)
    (op : Op α) (fits : op.Fits cells) :
    ∃ after, op.exec list = some after ∧
      Held after (op.apply cells) (inserted + if op.inserts then 1 else 0) := by
  obtain ⟨links, same, holds⟩ := held.linked
  obtain ⟨total, rfl⟩ : ∃ total, list = ofLinked links total := ⟨_, same⟩
  cases op with
  | append addr astNode =>
    refine ⟨_, append_eq holds fits.2.2 astNode _, ?_⟩
    have longer := holds.append astNode fits.2.2
    rw [← List.append_nil cells] at held fits
    exact held.grow fits longer (add_one_right total _)
  | prepend addr astNode =>
    refine ⟨_, prepend_eq holds fits.2.2 astNode _, ?_⟩
    rw [holds.first]
    rw [← List.nil_append cells] at held fits holds
    have longer := holds.splice astNode fits.2.2
    exact held.grow fits longer (add_one_right total _)
  | insertBefore item addr new =>
    obtain ⟨member, fresh⟩ := fits
    obtain ⟨front, ⟨place, data⟩, back, rfl, rfl, absent⟩ := Linked.exists_first member
    refine ⟨_, insertBefore_eq holds fresh.2.2 new _, ?_⟩
    have longer := holds.splice new.data fresh.2.2
    change Held _ (insertBeforeAt place (addr, new.data) _) _
    rw [insertBeforeAt_eq absent]
    refine held.grow fresh longer ?_
    rw [UInt64.ofNat_add, ← UInt64.add_assoc]
    rfl
  | insertAfter item addr new =>
    obtain ⟨member, fresh⟩ := fits
    obtain ⟨front, ⟨place, data⟩, back, rfl, rfl, absent⟩ := Linked.exists_first member
    refine ⟨_, insertAfter_eq holds fresh.2.2 new _, ?_⟩
    change Held _ (insertAfterAt place (addr, new.data) _) _
    rw [insertAfterAt_eq absent]
    rw [List.append_cons] at held fresh holds ⊢
    have longer := holds.splice new.data fresh.2.2
    rw [Linked.final_concat] at longer
    refine held.grow fresh longer ?_
    rw [UInt64.ofNat_add, ← UInt64.add_assoc]
    rfl
  | remove astNode => exact held.remove astNode

theorem allowed_append (cells : List (Nat × α)) (front back : List (Op α)) :
    Allowed cells (front ++ back) ↔ Allowed cells front ∧ Allowed (applyAll cells front) back := by
  induction front generalizing cells with
  | nil => exact (and_iff_right trivial).symm
  | cons op front ih => exact (and_congr_right fun _ => ih _).trans and_assoc.symm

/-- Every run of operations that fit has a result. -/
theorem Held.run {list : Root α} {cells : List (Nat × α)} (held : Held list cells inserted)
    (ops : List (Op α)) (allowed : Allowed cells ops) :
    ∃ after, AstList.run list ops = some after ∧
      Held after (applyAll cells ops) (inserted + ops.countP Op.inserts) := by
  induction ops generalizing list cells inserted with
  | nil => exact ⟨list, rfl, held⟩
  | cons op ops ih =>
    obtain ⟨fits, allowed⟩ := allowed
    obtain ⟨next, success, held⟩ := held.exec op fits
    obtain ⟨after, ran, held⟩ := ih held allowed
    refine ⟨after, ?_, ?_⟩
    · rw [AstList.run, success]
      exact ran
    · rw [List.countP_cons, Nat.add_comm (ops.countP _), ← Nat.add_assoc]
      exact held

/-- All lists of a run are well formed and know how many items they have if and only if nothing
is inserted but by the list itself. -/
theorem ast_list_runs_iff (items : Items α) (ops : List (Op α)) (allowed : Allowed [] ops) :
    (∀ front, front <+: ops → ∃ list, run (ctor items) front = some list ∧
      Represents list (applyAll [] front)) ↔ ∀ op ∈ ops, op.inserts = false := by
  have reaches (front back : List (Op α)) (split : ops = front ++ back) :
      ∃ list, run (ctor items) front = some list ∧
        (Represents list (applyAll [] front) ↔ UInt64.ofNat (front.countP Op.inserts) = 0) := by
    rw [split] at allowed
    obtain ⟨list, ran, held⟩ := (held_ctor items).run front ((allowed_append _ _ _).mp allowed).1
    rw [Nat.zero_add] at held
    exact ⟨list, ran, held.represents_iff⟩
  constructor
  · intro all op member
    obtain ⟨front, back, split⟩ := List.append_of_mem member
    have right (start : List (Op α)) (begins : start <+: ops) :
        UInt64.ofNat (start.countP Op.inserts) = 0 := by
      obtain ⟨list, ran, represents⟩ := all start begins
      obtain ⟨rest, rfl⟩ := begins
      obtain ⟨other, same, iff⟩ := reaches start rest rfl
      cases ran.symm.trans same
      exact iff.mp represents
    have before := right front ⟨op :: back, split.symm⟩
    have after := right (front ++ [op]) ⟨back, by rw [split, List.append_assoc]; rfl⟩
    rw [List.countP_append, UInt64.ofNat_add, before, UInt64.zero_add] at after
    cases inserted : op.inserts with
    | false => rfl
    | true =>
      rw [List.countP_singleton, inserted] at after
      cases after
  · rintro none front ⟨back, rfl⟩
    obtain ⟨list, ran, right⟩ := reaches front back rfl
    refine ⟨list, ran, right.mpr ?_⟩
    have never : front.countP Op.inserts = 0 := by
      rw [List.countP_eq_zero]
      intro op member
      rw [none op (List.mem_append_left _ member)]
      exact Bool.false_ne_true
    rw [never]
    rfl

theorem ast_list_runs_iff_remove :
    let ops : List (Op Nat) := [.append 1 7, .prepend 2 8, .remove 7]
    (∀ front, front <+: ops → ∃ list, run (ctor fun _ => none) front = some list ∧
      Represents list (applyAll [] front)) ↔ ∀ op ∈ ops, op.inserts = false :=
  ast_list_runs_iff (fun _ => none) _ (by decide)

/-- A list that an item was inserted into does not count it. -/
theorem ast_list_not_counted :
    let ops : List (Op Nat) := [.append 1 7, .insertAfter 1 2 ⟨8, none, none⟩]
    Allowed [] ops ∧ ¬∀ front, front <+: ops → ∃ list, run (ctor fun _ => none) front = some list ∧
      Represents list (applyAll [] front) := by
  refine ⟨by decide, fun all => ?_⟩
  obtain ⟨list, ran, represents⟩ := all _ (List.prefix_refl _)
  cases ran
  cases represents.counted

end Runs

end HandlebarsC.AstList
