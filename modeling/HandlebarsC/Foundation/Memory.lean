import Mathlib.Data.List.Basic

/-!
A memory of objects. An address that was freed is not given out again.
-/

namespace Memory

/-- The objects that have been allocated, by address. -/
abbrev Store (α : Type) := List (Option α)

variable {α : Type} {store : Store α} {object found : α} {addr other : Nat}

def load (store : Store α) (addr : Nat) : Option α := store[addr]?.join

/-- An object takes the place of one that is there, or none does. -/
def put (store : Store α) (addr : Nat) (object : Option α) : Store α := store.set addr object

/-- A new object gets the address behind all others. -/
def alloc (store : Store α) (object : α) : Store α := store ++ [some object]

@[simp] theorem length_put (store : Store α) (addr : Nat) (object : Option α) :
    (put store addr object).length = store.length :=
  List.length_set

@[simp] theorem length_alloc (store : Store α) (object : α) :
    (alloc store object).length = store.length + 1 := by
  simp [alloc]

@[simp] theorem load_nil (addr : Nat) : load ([] : Store α) addr = none := by
  simp [load]

theorem load_eq_some : load store addr = some object ↔ store[addr]? = some (some object) := by
  unfold load
  cases store[addr]? with
  | none => simp
  | some found => simp

theorem load_lt (present : load store addr = some object) : addr < store.length :=
  (List.getElem?_eq_some_iff.mp (load_eq_some.mp present)).1

theorem load_put_self (present : load store addr = some found) (object : Option α) :
    load (put store addr object) addr = object := by
  unfold load put
  rw [List.getElem?_set_self (load_lt present), Option.join_some]

theorem load_put_other (apart : other ≠ addr) (store : Store α) (object : Option α) :
    load (put store addr object) other = load store other := by
  unfold load put
  rw [List.getElem?_set_ne apart.symm]

@[simp] theorem load_alloc_self (store : Store α) (object : α) :
    load (alloc store object) store.length = some object := by
  simp [load, alloc]

theorem load_alloc_other (apart : addr ≠ store.length) (object : α) :
    load (alloc store object) addr = load store addr := by
  unfold load alloc
  rcases Nat.lt_or_gt_of_ne apart with before | behind
  · rw [List.getElem?_append_left before]
  · rw [List.getElem?_eq_none (by rw [List.length_append, List.length_singleton]; omega),
      List.getElem?_eq_none (Nat.le_of_lt behind)]

/-- What is there stays where it is when something is allocated. -/
theorem load_alloc (present : load store addr = some found) (object : α) :
    load (alloc store object) addr = some found :=
  (load_alloc_other (Nat.ne_of_lt (load_lt present)) object).trans present

theorem put_load (present : load store addr = some found) : put store addr (some found) = store := by
  have inside := load_lt present
  have held := load_eq_some.mp present
  apply List.ext_getElem?
  intro place
  unfold put
  by_cases here : place = addr
  · rw [here, List.getElem?_set_self inside, held]
  · rw [List.getElem?_set_ne (Ne.symm here)]

/-- What holds of the objects of a store, of the new one too. -/
theorem forall_put {property : α → Prop}
    (all : ∀ other object, load store other = some object → property object)
    (new : ∀ object, after = some object → property object)
    (present : load (put store addr after) other = some object) : property object := by
  by_cases here : other = addr
  · subst here
    by_cases inside : other < store.length
    · have held : load (put store other after) other = after := by
        unfold load put
        rw [List.getElem?_set_self inside, Option.join_some]
      exact new object (held.symm.trans present)
    · have outside : load (put store other after) other = none := by
        unfold load put
        rw [List.getElem?_eq_none (by rw [List.length_set]; omega), Option.join_none]
      rw [outside] at present
      cases present
  · rw [load_put_other here] at present
    exact all other object present

theorem forall_alloc {property : α → Prop}
    (all : ∀ other object, load store other = some object → property object)
    (new : property found) (present : load (alloc store found) other = some object) :
    property object := by
  by_cases here : other = store.length
  · rw [here, load_alloc_self] at present
    cases present
    exact new
  · rw [load_alloc_other here] at present
    exact all other object present

end Memory
