import Mathlib.Data.List.Basic

/-!
Pointers inside a block of memory that may lie anywhere: beside its value, a link has
the place it should lead to, as an offset from the start of the block, and what is there.
Addresses are taken modulo the word size.
-/

structure Link (α : Type) where
  ptr : UInt64
  offset : UInt64
  target : α
  deriving DecidableEq, Repr

namespace Link

variable {α β : Type} {link : Link α} {base source : UInt64}

/-- What is read through the pointer in a block at `base`. -/
def follow (base : UInt64) (link : Link α) : Option α :=
  if link.ptr = base + link.offset then some link.target else none

/-- Adds the distance between two bases to the pointer. -/
def patch (source base : UInt64) (link : Link α) : Link α :=
  { link with ptr := link.ptr - source + base }

/-- The pointer that leads to the link's place in a block at `base`. -/
def relink (base : UInt64) (link : Link α) : Link α :=
  { link with ptr := base + link.offset }

/-- The same link to something else. -/
def retarget (link : Link α) (target : β) : Link β := ⟨link.ptr, link.offset, target⟩

theorem follow_relink : (link.relink base).follow base = some link.target := if_pos rfl

@[simp] theorem relink_relink : (link.relink source).relink base = link.relink base := rfl

@[simp] theorem relink_offset : (link.relink base).offset = link.offset := rfl

@[simp] theorem relink_target : (link.relink base).target = link.target := rfl

/-- Patching a pointer that is right for one base makes it right for the other. -/
@[simp] theorem patch_relink : (link.relink source).patch source base = link.relink base := by
  have moved : source + link.offset - source + base = base + link.offset := by
    rw [UInt64.add_comm source, UInt64.add_sub_cancel, UInt64.add_comm]
  exact congrArg (fun ptr => Link.mk ptr link.offset link.target) moved

@[simp] theorem patch_retarget (target : β) :
    (link.retarget target).patch source base = (link.patch source base).retarget target := rfl

@[simp] theorem retarget_retarget (target : β) (other : γ) :
    (link.retarget target).retarget other = link.retarget other := rfl

@[simp] theorem retarget_target (target : β) : (link.retarget target).target = target := rfl

theorem follow_retarget (target : β) :
    ((link.relink base).retarget target).follow base = some target := if_pos rfl

/-- A walk that succeeds at every step. -/
theorem mapM_some {check : α → Option β} (result : α → β) (row : List α)
    (succeeds : ∀ item ∈ row, check item = some (result item)) :
    row.mapM check = some (row.map result) := by
  induction row with
  | nil => rfl
  | cons item rest ih =>
    rw [List.mapM_cons, succeeds item List.mem_cons_self,
      ih fun later member => succeeds later (List.mem_cons_of_mem _ member)]
    rfl

end Link
