import Mathlib.Data.List.Induction
import Mathlib.Data.List.Nodup

/-!
Doubly linked lists in a memory of items, and the lists of data they hold.
-/

namespace Linked

/-- An item of a list. -/
structure Item (α : Type) where
  data : α
  next : Option Nat
  prev : Option Nat

/-- Items by their address. -/
abbrev Items (α : Type) := Nat → Option (Item α)

end Linked

/-- The root of a list, with the memory its items lie in. -/
structure Linked (α : Type) where
  first : Option Nat
  last : Option Nat
  count : Nat
  items : Linked.Items α

namespace Linked

variable {α : Type}

def empty : Linked α := ⟨none, none, 0, fun _ => none⟩

/-- Changes an item, when there is one. -/
def modify (items : Items α) (addr : Option Nat) (change : Item α → Item α) : Items α :=
  match addr with
  | none => items
  | some addr => fun other => if other = addr then (items addr).map change else items other

def free (items : Items α) (addr : Nat) : Items α := fun other =>
  if other = addr then none else items other

def store (items : Items α) (addr : Nat) (item : Item α) : Items α := fun other =>
  if other = addr then some item else items other

/-- Changes an item. There is no result where there is none. -/
def update (items : Items α) (addr : Nat) (change : Item α → Item α) : Option (Items α) :=
  (items addr).map fun _ => modify items (some addr) change

/-- Puts a new item between two that follow each other, or at an end. -/
def splice (list : Linked α) (before after : Option Nat) (addr : Nat) (data : α) : Linked α :=
  { first := if before.isNone then some addr else list.first
    last := if after.isNone then some addr else list.last
    count := list.count + 1
    items := modify (modify (store list.items addr ⟨data, after, before⟩) after
      fun next => { next with prev := some addr }) before
      fun prev => { prev with next := some addr } }

/-- Adds a new item at the end. -/
def append (list : Linked α) (addr : Nat) (data : α) : Linked α :=
  match list.last with
  | none =>
    { first := some addr, last := some addr, count := list.count + 1
      items := store list.items addr ⟨data, none, none⟩ }
  | some last =>
    { first := list.first, last := some addr, count := list.count + 1
      items := modify (store list.items addr ⟨data, none, some last⟩) (some last)
        fun item => { item with next := some addr } }

/-- Takes an item out of the list and frees it. -/
def unlink (list : Linked α) (addr : Nat) (item : Item α) : Linked α :=
  { first := if item.prev.isNone then item.next else list.first
    last := if item.next.isNone then item.prev else list.last
    count := list.count - 1
    items := free (modify (modify list.items item.prev fun prev => { prev with next := item.next })
      item.next fun next => { next with prev := item.prev }) addr }

/-- The first item with the data, from an address on. -/
def search [DecidableEq α] (items : Items α) (data : α) : Nat → Option Nat → Option (Nat × Item α)
  | 0, _ | _, none => none
  | left + 1, some addr =>
    match items addr with
    | none => none
    | some item => if item.data = data then some (addr, item) else search items data left item.next

/-- The data from an address on. -/
def walk (items : Items α) : Nat → Option Nat → List α
  | 0, _ | _, none => []
  | left + 1, some addr =>
    match items addr with
    | none => []
    | some item => item.data :: walk items left item.next

def toList (list : Linked α) : List α := walk list.items list.count list.first

/-- The address of the first cell, when there is one. -/
def head (cells : List (Nat × α)) (next : Option Nat) : Option Nat :=
  (cells.head?.map Prod.fst).or next

/-- The address of the last cell, when there is one. -/
def final (prev : Option Nat) (cells : List (Nat × α)) : Option Nat :=
  (cells.getLast?.map Prod.fst).or prev

/-- Cells that are linked to each other, to the item before them and to the one behind. -/
def Chain (items : Items α) : Option Nat → List (Nat × α) → Option Nat → Prop
  | _, [], _ => True
  | prev, (addr, data) :: rest, next =>
    items addr = some ⟨data, head rest next, prev⟩ ∧ Chain items (some addr) rest next

/-- The cells that are met from an address on along one kind of link, up to its end. -/
inductive Walk (items : Items α) (link : Item α → Option Nat) : Option Nat → List (Nat × α) → Prop where
  | null : Walk items link none []
  | step {addr : Nat} {item : Item α} {cells : List (Nat × α)} (present : items addr = some item)
      (rest : Walk items link (link item) cells) :
      Walk items link (some addr) ((addr, item.data) :: cells)

/-- A list is consistent and holds the cells. -/
structure Holds (list : Linked α) (cells : List (Nat × α)) : Prop where
  first : list.first = head cells none
  last : list.last = final none cells
  count : list.count = cells.length
  chain : Chain list.items none cells none
  apart : (cells.map Prod.fst).Nodup

theorem holds_empty : Holds (empty : Linked α) [] := ⟨rfl, rfl, rfl, trivial, List.nodup_nil⟩

@[simp] theorem head_cons (cell : Nat × α) (rest : List (Nat × α)) (next : Option Nat) :
    head (cell :: rest) next = some cell.1 := rfl

@[simp] theorem final_concat (prev : Option Nat) (front : List (Nat × α)) (cell : Nat × α) :
    final prev (front ++ [cell]) = some cell.1 := by
  simp [final]

theorem head_append (front back : List (Nat × α)) (next : Option Nat) :
    head (front ++ back) next = head front (head back next) := by
  cases front <;> rfl

theorem final_cons (prev : Option Nat) (cell : Nat × α) (rest : List (Nat × α)) :
    final prev (cell :: rest) = final (some cell.1) rest := by
  cases rest with
  | nil => rfl
  | cons second rest =>
    unfold final
    rw [List.getLast?_cons_cons, List.getLast?_eq_some_getLast (List.cons_ne_nil second rest)]
    rfl

theorem isNone_final_cons (prev : Option Nat) (cell : Nat × α) (rest : List (Nat × α)) :
    (final prev (cell :: rest)).isNone = false := by
  rw [final_cons]
  unfold final
  cases rest.getLast?.map Prod.fst <;> rfl

theorem final_append (prev : Option Nat) (front back : List (Nat × α)) :
    final prev (front ++ back) = final (final prev front) back := by
  induction front generalizing prev with
  | nil => rfl
  | cons cell front ih => rw [List.cons_append, final_cons, final_cons, ih]

section Chains

variable {items : Items α} {cells : List (Nat × α)} {prev next : Option Nat}

theorem Chain.congr {others : Items α} (chain : Chain items prev cells next)
    (same : ∀ addr ∈ cells.map Prod.fst, others addr = items addr) :
    Chain others prev cells next := by
  induction cells generalizing prev with
  | nil => trivial
  | cons cell rest ih =>
    obtain ⟨here, later⟩ := chain
    exact ⟨(same _ List.mem_cons_self).trans here,
      ih later fun addr member => same addr (List.mem_cons_of_mem _ member)⟩

theorem chain_cons (cell : Nat × α) (rest : List (Nat × α)) :
    Chain items prev (cell :: rest) next ↔
      items cell.1 = some ⟨cell.2, head rest next, prev⟩ ∧ Chain items (some cell.1) rest next :=
  Iff.rfl

theorem chain_append (front back : List (Nat × α)) :
    Chain items prev (front ++ back) next ↔
      Chain items prev front (head back next) ∧ Chain items (final prev front) back next := by
  induction front generalizing prev with
  | nil => exact ⟨fun later => ⟨trivial, later⟩, And.right⟩
  | cons cell front ih =>
    rw [List.cons_append, final_cons, chain_cons, chain_cons, ih, head_append, and_assoc]

theorem Chain.present (chain : Chain items prev cells next) (member : addr ∈ cells.map Prod.fst) :
    ∃ item, items addr = some item := by
  induction cells generalizing prev with
  | nil => cases member
  | cons cell rest ih =>
    obtain ⟨here, later⟩ := chain
    rcases List.mem_cons.mp member with rfl | member
    · exact ⟨_, here⟩
    · exact ih later member

theorem modify_ne {addr : Option Nat} {change : Item α → Item α} (other : addr ≠ some place) :
    modify items addr change place = items place := by
  cases addr with
  | none => rfl
  | some addr => exact if_neg fun same => other (congrArg some same.symm)

theorem modify_self {change : Item α → Item α} (present : items place = some item) :
    modify items (some place) change place = some (change item) := by
  change (if place = place then (items place).map change else _) = _
  rw [if_pos rfl, present]
  rfl

theorem free_ne (other : place ≠ addr) : free items addr place = items place := if_neg other

theorem store_ne (other : place ≠ addr) : store items addr item place = items place := if_neg other

theorem store_self : store items addr item addr = some item := if_pos rfl

theorem head_mem (present : head cells none = some addr) : addr ∈ cells.map Prod.fst := by
  cases cells with
  | nil => cases present
  | cons cell rest =>
    cases present
    exact List.mem_cons_self

theorem final_mem (present : final none cells = some addr) : addr ∈ cells.map Prod.fst := by
  cases cells using List.reverseRecOn with
  | nil => cases present
  | append_singleton front cell =>
    rw [final_concat] at present
    cases present
    simp

theorem modify_at (change : Item α → Item α) :
    modify items (some addr) change addr = (items addr).map change := if_pos rfl

theorem modify_comm {left right : Option Nat} (apart : left = none ∨ left ≠ right)
    (change other : Item α → Item α) :
    modify (modify items left change) right other =
      modify (modify items right other) left change := by
  rcases apart with rfl | apart
  · rfl
  funext place
  by_cases here : left = some place
  · subst here
    rw [modify_ne (Ne.symm apart), modify_at, modify_at, modify_ne (Ne.symm apart)]
  · rw [modify_ne here]
    by_cases there : right = some place
    · subst there
      rw [modify_at, modify_at, modify_ne here]
    · rw [modify_ne there, modify_ne there, modify_ne here]

theorem modify_store (change : Item α → Item α) :
    modify (store items addr item) (some addr) change = store items addr (change item) := by
  funext place
  by_cases here : place = addr
  · subst here
    rw [modify_self store_self, store_self]
  · rw [modify_ne fun same => here (Option.some.inj same).symm, store_ne here, store_ne here]

theorem update_eq (present : items addr = some item) (change : Item α → Item α) :
    update items addr change = some (modify items (some addr) change) := by
  rw [update, present]
  rfl

theorem update_store (change : Item α → Item α) :
    update (store items addr item) addr change = some (store items addr (change item)) :=
  (update_eq store_self change).trans (congrArg some (modify_store change))

/-- Another item before the cells. -/
theorem Chain.relinkPrev (chain : Chain items prev cells next)
    (apart : (cells.map Prod.fst).Nodup) (other : Option Nat) :
    Chain (modify items (head cells none) fun item => { item with prev := other })
      other cells next := by
  cases cells with
  | nil => trivial
  | cons cell rest =>
    obtain ⟨here, later⟩ := chain
    refine ⟨modify_self here, later.congr ?_⟩
    intro addr member
    apply modify_ne
    intro same
    cases same
    exact (List.nodup_cons.mp apart).1 member

/-- Another item behind the cells. -/
theorem Chain.relinkNext (chain : Chain items prev cells next)
    (apart : (cells.map Prod.fst).Nodup) (other : Option Nat) :
    Chain (modify items (final none cells) fun item => { item with next := other })
      prev cells other := by
  cases cells using List.reverseRecOn with
  | nil => trivial
  | append_singleton front cell =>
    obtain ⟨before, here, -⟩ := (chain_append front [cell]).mp chain
    rw [final_concat]
    refine (chain_append front [cell]).mpr ⟨before.congr ?_, modify_self here, trivial⟩
    intro addr member
    apply modify_ne
    intro same
    cases same
    rw [List.map_append] at apart
    exact (List.nodup_append.mp apart).2.2 _ member _ (List.mem_singleton_self _) rfl

/-- Along the links to the next items lie the cells. -/
theorem Chain.forward (chain : Chain items prev cells none) :
    Walk items Item.next (head cells none) cells := by
  induction cells generalizing prev with
  | nil => exact .null
  | cons cell rest ih =>
    obtain ⟨here, later⟩ := chain
    exact .step here (ih later)

/-- Along the links to the items before lie the cells from the last one on. -/
theorem Chain.backward (chain : Chain items none cells next) :
    Walk items Item.prev (final none cells) cells.reverse := by
  induction cells using List.reverseRecOn generalizing next with
  | nil => exact .null
  | append_singleton front cell ih =>
    obtain ⟨before, here, -⟩ := (chain_append front [cell]).mp chain
    rw [final_concat, List.reverse_append]
    exact .step here (ih before)

end Chains

section Operations

variable {list : Linked α} {front back : List (Nat × α)}

/-- A new cell between the cells in front and those behind. -/
theorem Holds.splice (holds : Holds list (front ++ back)) (data : α)
    (fresh : addr ∉ (front ++ back).map Prod.fst) :
    Holds (list.splice (final none front) (head back none) addr data)
      (front ++ (addr, data) :: back) := by
  have apart := holds.apart
  rw [List.map_append] at apart fresh
  obtain ⟨apartFront, apartBack, disjoint⟩ := List.nodup_append.mp apart
  rw [List.mem_append, not_or] at fresh
  obtain ⟨notFront, notBack⟩ := fresh
  obtain ⟨before, behind⟩ := (chain_append front back).mp holds.chain
  have cross : ∀ place ∈ front.map Prod.fst, place ∉ back.map Prod.fst :=
    fun place member other => disjoint _ member _ other rfl
  have stored (place : Nat) (other : place ≠ addr) :
      store list.items addr ⟨data, head back none, final none front⟩ place = list.items place :=
    store_ne other
  refine ⟨?_, ?_, ?_, (chain_append _ _).mpr ⟨?_, ?_, ?_⟩, ?_⟩
  · cases front with
    | nil => rfl
    | cons cell front =>
      unfold Linked.splice
      dsimp only
      rw [isNone_final_cons]
      exact holds.first
  · cases back with
    | nil => exact (final_concat none front (addr, data)).symm
    | cons cell back =>
      refine holds.last.trans ?_
      rw [final_append, final_append, final_cons, final_cons, final_cons]
  · change list.count + 1 = _
    rw [holds.count, List.length_append, List.length_append, List.length_cons, Nat.add_assoc]
  · refine Chain.relinkNext (before.congr ?_) apartFront (some addr)
    intro place member
    rw [modify_ne fun same => cross place member (head_mem same)]
    exact stored place fun same => notFront (same ▸ member)
  · unfold Linked.splice
    dsimp only
    rw [modify_ne fun same => notFront (final_mem same),
      modify_ne fun same => notBack (head_mem same), store_self]
  · have linked : Chain (modify (store list.items addr ⟨data, head back none, final none front⟩)
        (head back none) fun next => { next with prev := some addr }) (some addr) back none := by
      refine Chain.relinkPrev (behind.congr ?_) apartBack (some addr)
      intro place member
      exact stored place fun same => notBack (same ▸ member)
    refine linked.congr fun place member => ?_
    exact modify_ne fun same => cross place (final_mem same) member
  · rw [List.map_append, List.map_cons]
    apply List.nodup_middle.mpr
    rw [List.nodup_cons, List.mem_append, not_or]
    exact ⟨⟨notFront, notBack⟩, apart⟩

theorem append_eq_splice (list : Linked α) (addr : Nat) (data : α) :
    list.append addr data = list.splice list.last none addr data := by
  unfold Linked.append Linked.splice
  cases list.last <;> rfl

theorem Holds.append {cells : List (Nat × α)} (holds : Holds list cells) (data : α)
    (fresh : addr ∉ cells.map Prod.fst) :
    Holds (list.append addr data) (cells ++ [(addr, data)]) := by
  rw [append_eq_splice, holds.last]
  rw [← List.append_nil cells] at holds fresh
  exact holds.splice data fresh

/-- The first cell with a value of a field. -/
theorem exists_first {β : Type} {value : β} {field : Nat × α → β} {cells : List (Nat × α)}
    (member : value ∈ cells.map field) :
    ∃ front cell back, cells = front ++ cell :: back ∧ field cell = value ∧
      value ∉ front.map field := by
  obtain ⟨before, behind, split, absent⟩ := List.eq_append_cons_of_mem member
  obtain ⟨front, rest, rfl, rfl, same⟩ := List.map_eq_append_iff.mp split
  obtain ⟨cell, back, rfl, here, -⟩ := List.map_eq_cons_iff.mp same
  exact ⟨front, cell, back, rfl, here, absent⟩

/-- Unlinking a cell leaves the cells before and behind it. -/
theorem Holds.unlink (holds : Holds list (front ++ (addr, data) :: back)) :
    ∃ item, list.items addr = some item ∧ item.data = data ∧ item.next = head back none ∧
      Holds (list.unlink addr item) (front ++ back) := by
  obtain ⟨before, here, behind⟩ := (chain_append _ _).mp holds.chain
  have apart := holds.apart
  rw [List.map_append, List.map_cons] at apart
  obtain ⟨apartFront, apartRest, disjoint⟩ := List.nodup_append.mp apart
  obtain ⟨outside, apartBack⟩ := List.nodup_cons.mp apartRest
  have notFront : addr ∉ front.map Prod.fst := fun member =>
    disjoint _ member _ List.mem_cons_self rfl
  have cross : ∀ place ∈ front.map Prod.fst, place ∉ back.map Prod.fst := fun place member other =>
    disjoint _ member _ (List.mem_cons_of_mem _ other) rfl
  refine ⟨_, here, rfl, rfl, ?_, ?_, ?_, ?_, ?_⟩
  · unfold Linked.unlink
    dsimp only
    rw [holds.first]
    cases front with
    | nil => rfl
    | cons cell front =>
      rw [isNone_final_cons]
      rfl
  · unfold Linked.unlink
    dsimp only
    rw [holds.last, final_append, final_append, final_cons]
    cases back with
    | nil => rfl
    | cons cell back =>
      rw [final_cons, final_cons]
      rfl
  · have size := holds.count
    rw [List.length_append, List.length_cons] at size
    rw [List.length_append]
    change list.count - 1 = _
    omega
  · refine (chain_append _ _).mpr ⟨?_, ?_⟩
    · refine (before.relinkNext apartFront (head back none)).congr ?_
      intro place member
      unfold Linked.unlink
      dsimp only
      have elsewhere : place ≠ addr := by
        rintro rfl
        exact notFront member
      rw [free_ne elsewhere, modify_ne]
      intro same
      exact cross place member (head_mem same)
    · have kept : Chain (modify list.items (final none front) fun prev =>
          { prev with next := head back none }) (some addr) back none := by
        refine behind.congr ?_
        intro place member
        apply modify_ne
        intro same
        exact cross place (final_mem same) member
      refine (kept.relinkPrev apartBack (final none front)).congr ?_
      intro place member
      unfold Linked.unlink
      exact free_ne fun same => outside (same ▸ member)
  · rw [List.map_append]
    exact List.nodup_append.mpr ⟨apartFront, apartBack, fun place member other later =>
      fun same => cross place member (same ▸ later)⟩

/-- The first cell with the data is found. -/
theorem Chain.search [DecidableEq α] {items : Items α} {data : α} {prev : Option Nat}
    (chain : Chain items prev (front ++ (addr, data) :: back) none)
    (first : data ∉ front.map Prod.snd) (enough : front.length < left) :
    ∃ item, items addr = some item ∧
      search items data left (head (front ++ (addr, data) :: back) none) = some (addr, item) := by
  obtain ⟨left, rfl⟩ : ∃ less, left = less + 1 := ⟨left - 1, by omega⟩
  induction front generalizing prev left with
  | nil =>
    obtain ⟨here, -⟩ := chain
    refine ⟨_, here, ?_⟩
    rw [List.nil_append, head_cons]
    unfold Linked.search
    rw [here]
    exact if_pos rfl
  | cons cell front ih =>
    obtain ⟨here, later⟩ := chain
    rw [List.map_cons, List.mem_cons, not_or] at first
    rw [List.length_cons] at enough
    obtain ⟨less, rfl⟩ : ∃ less, left = less + 1 := ⟨left - 1, by omega⟩
    obtain ⟨item, present, found⟩ := ih later first.2 less (by omega)
    refine ⟨item, present, ?_⟩
    change Linked.search items data (less + 1 + 1) (some cell.1) = _
    unfold Linked.search
    rw [here]
    dsimp only
    rw [if_neg fun same => first.1 same.symm]
    exact found

theorem Chain.search_absent [DecidableEq α] {items : Items α} {data : α} {prev : Option Nat}
    {cells : List (Nat × α)} (chain : Chain items prev cells none)
    (absent : data ∉ cells.map Prod.snd) (left : Nat) :
    Linked.search items data left (head cells none) = none := by
  induction cells generalizing prev left with
  | nil => cases left <;> rfl
  | cons cell rest ih =>
    obtain ⟨here, later⟩ := chain
    rw [List.map_cons, List.mem_cons, not_or] at absent
    cases left with
    | zero => rfl
    | succ left =>
      rw [head_cons]
      unfold Linked.search
      rw [here]
      dsimp only
      rw [if_neg fun same => absent.1 same.symm]
      exact ih later absent.2 left

theorem Chain.walk {items : Items α} {prev : Option Nat} {cells : List (Nat × α)}
    (chain : Chain items prev cells none) :
    walk items cells.length (head cells none) = cells.map Prod.snd := by
  induction cells generalizing prev with
  | nil => rfl
  | cons cell rest ih =>
    obtain ⟨here, later⟩ := chain
    rw [List.length_cons, head_cons, List.map_cons]
    unfold Linked.walk
    rw [here]
    dsimp only
    rw [ih later]

theorem Holds.toList {cells : List (Nat × α)} (holds : Holds list cells) :
    list.toList = cells.map Prod.snd := by
  unfold Linked.toList
  rw [holds.count, holds.first, holds.chain.walk]

end Operations

end Linked
