import HandlebarsC.Vm.State

/-!
`handlebars_stack.c`: the stack as an object that has owners, can be grown and can be
copied, and what its calls do for the owner that makes them.
-/

namespace HandlebarsC

/-- `struct handlebars_stack` -/
structure StackObject (α : Type) extends Stack α where
  refcount : UInt8
  capacity : Nat
  /-- `HANDLEBARS_STACK_TALLOCATED` -/
  isTalloced : Bool

namespace StackObject

variable {α : Type}

def isShared (stack : StackObject α) : Bool := 1 < stack.refcount

/-- `handlebars_stack_init` -/
def init (capacity : Nat) : StackObject α :=
  { Stack.empty with refcount := 0, capacity := capacity, isTalloced := false }

/-- `handlebars_stack_ctor` -/
def ctor (capacity : Nat) : StackObject α :=
  { Stack.empty with refcount := 0, capacity := capacity, isTalloced := true }

/-- `handlebars_stack_addref` -/
def addref (stack : StackObject α) : StackObject α :=
  if stack.refcount < 255 then { stack with refcount := stack.refcount + 1 } else stack

/-- `handlebars_stack_delref`, which ends a stack that has no other owner. -/
def delref (stack : StackObject α) : StackObject α :=
  if stack.refcount = 255 then stack
  else if stack.refcount ≤ 1 then { stack with refcount := 0 }
  else { stack with refcount := stack.refcount - 1 }

/-- `handlebars_stack_copy_ctor` -/
def copyCtor (stack : StackObject α) (newCapacity : Nat) : StackObject α :=
  { (ctor (max newCapacity stack.count) : StackObject α) with v := stack.v }

def overflow : Error := ⟨.stackOverflow, bytes "Stack overflow", LocInfo.zero⟩

/-- `stack_separate` -/
def separate (stack : StackObject α) : Except Error (StackObject α) :=
  if stack.isShared then
    if stack.isTalloced then .ok (stack.copyCtor stack.capacity).addref else .error overflow
  else .ok stack

/-- `(stack->capacity | 3) * 3 / 2` -/
def grownCapacity (capacity : Nat) : Nat := (capacity ||| 3) * 3 % 2 ^ 64 / 2

/-- The stack that `handlebars_stack_push` writes to. -/
def reserve (stack : StackObject α) : Except Error (StackObject α) :=
  if stack.count < stack.capacity then stack.separate
  else if stack.isTalloced then .ok (stack.copyCtor (grownCapacity stack.capacity)).addref
  else .error overflow

/-- `handlebars_stack_push` -/
def push (stack : StackObject α) (value : α) : Except Error (StackObject α) :=
  stack.reserve.map fun stack => { stack with v := value :: stack.v }

def popShared : Error :=
  ⟨.error, bytes "Attempting to pop protected stack with refcount > 1", LocInfo.zero⟩

def popProtected (stack : StackObject α) : Error :=
  ⟨.stackOverflow, bytes "Attempting to pop protected stack segment i=" ++ decimal stack.count ++
    bytes " protect=" ++ decimal stack.protect, LocInfo.zero⟩

/-- `handlebars_stack_pop`: NULL where the stack is empty. -/
def pop (stack : StackObject α) : Except Error (Option α × StackObject α) :=
  match stack.v with
  | [] => .ok (none, stack)
  | value :: rest =>
    if stack.isShared then .error popShared
    else if stack.count < stack.protect then .error stack.popProtected
    else .ok (some value, { stack with v := rest })

def setOutOfBounds (stack : StackObject α) (offset : Nat) : Error :=
  ⟨.stackOverflow, bytes "Out-of-bounds " ++ decimal offset ++ bytes "/" ++ decimal stack.count,
    LocInfo.zero⟩

def setProtected (stack : StackObject α) (offset : Nat) : Error :=
  ⟨.stackOverflow, bytes "Attempting to set protected stack segment offset=" ++ decimal offset ++
    bytes " protect=" ++ decimal stack.protect, LocInfo.zero⟩

/-- The stack an owner is left with that has been given a copy and does not get to it. -/
def abandoned (stack : StackObject α) : StackObject α :=
  if stack.isShared then stack.delref else stack

/-- `handlebars_stack_set`. An error comes with the stack the caller still has. -/
def set (stack : StackObject α) (offset : Nat) (value : α) :
    Except (Error × StackObject α) (StackObject α) :=
  if offset = stack.count then (stack.push value).mapError fun error => (error, stack)
  else match stack.separate with
    | .error error => .error (error, stack)
    | .ok own =>
      if own.count ≤ offset then .error (own.setOutOfBounds offset, stack.abandoned)
      else if offset < own.protect then .error (own.setProtected offset, stack.abandoned)
      else .ok { own with v := own.v.set (own.count - 1 - offset) value }

/-- The loop of `handlebars_stack_truncate`, for as many elements as there are. -/
def truncateLoop (num : Nat) : Nat → StackObject α → Except (Error × StackObject α) (StackObject α)
  | 0, stack => .ok stack
  | left + 1, stack =>
    if stack.count ≤ num then .ok stack
    else match stack.pop with
      | .error error => .error (error, stack)
      | .ok (_, rest) => truncateLoop num left rest

/-- `handlebars_stack_truncate` -/
def truncate (stack : StackObject α) (num : Nat) : Except (Error × StackObject α) (StackObject α) :=
  truncateLoop num stack.count stack

/-- `struct handlebars_stack_save_buf`, with the elements there were. -/
structure SaveBuf (α : Type) where
  protect : Nat
  count : Nat
  elements : List α
  counted : count = elements.length

/-- `handlebars_stack_save` -/
def save (stack : StackObject α) : SaveBuf α × StackObject α :=
  (⟨stack.protect, stack.count, stack.v, rfl⟩, { stack with protect := stack.count })

/-- `handlebars_stack_restore` -/
def restore (stack : StackObject α) (buf : SaveBuf α) :
    Except (Error × StackObject α) (StackObject α) :=
  { stack with protect := buf.protect }.truncate buf.count

/-- A stack of the VM: it cannot grow, and nothing else owns it. -/
structure Fixed (stack : StackObject α) : Prop where
  unshared : stack.isShared = false
  unmanaged : stack.isTalloced = false
  capacity : stack.capacity = Stack.capacity

/-- The stack with other elements. -/
def holding (stack : StackObject α) (elements : List α) : StackObject α :=
  { stack with v := elements }

namespace Fixed

variable {stack : StackObject α}

theorem holding (fixed : stack.Fixed) (elements : List α) : (stack.holding elements).Fixed :=
  ⟨fixed.unshared, fixed.unmanaged, fixed.capacity⟩

theorem init : (StackObject.init Stack.capacity : StackObject α).Fixed := ⟨rfl, rfl, rfl⟩

theorem push (fixed : stack.Fixed) (value : α) :
    stack.push value = match stack.toStack.push value with
      | some result => .ok { stack with toStack := result }
      | none => .error overflow := by
  have own : stack.reserve =
      if stack.count < Stack.capacity then .ok stack else .error overflow := by
    unfold reserve separate
    rw [fixed.unshared, fixed.unmanaged, fixed.capacity]
    rfl
  unfold StackObject.push Stack.push
  rw [own]
  by_cases room : stack.count < Stack.capacity
  · rw [if_pos room, if_pos room]
    rfl
  · rw [if_neg room, if_neg room]
    rfl

theorem pop (fixed : stack.Fixed) :
    stack.pop = match stack.toStack.pop with
      | .none => .ok (none, stack)
      | .refused => .error stack.popProtected
      | .some value result => .ok (some value, { stack with toStack := result }) := by
  unfold StackObject.pop Stack.pop
  cases stack.v with
  | nil => rfl
  | cons value rest =>
    by_cases kept : stack.count < stack.protect
    · simp [fixed.unshared, kept]
    · simp [fixed.unshared, kept]

theorem truncateLoop (fixed : stack.Fixed) (num : Nat) :
    StackObject.truncateLoop num stack.v.length stack =
      match Stack.truncateLoop num stack.protect stack.v with
      | .ok rest => .ok (stack.holding rest)
      | .error rest => .error ((stack.holding rest).popProtected, stack.holding rest) := by
  obtain ⟨⟨v, protect⟩, refcount, capacity, isTalloced⟩ := stack
  induction v with
  | nil => rfl
  | cons value rest ih =>
    simp only [List.length_cons, StackObject.truncateLoop, Stack.truncateLoop, Stack.count]
    by_cases low : rest.length + 1 ≤ num
    · simp only [low, if_true]
      rfl
    · simp only [low, fixed.pop, Stack.pop, Stack.count, List.length_cons, if_false]
      by_cases kept : rest.length + 1 < protect
      · simp only [kept, if_true]
        rfl
      · simp only [kept, if_false]
        exact ih (fixed.holding rest)

theorem truncate (fixed : stack.Fixed) (num : Nat) :
    stack.truncate num = match Stack.truncateLoop num stack.protect stack.v with
      | .ok rest => .ok (stack.holding rest)
      | .error rest => .error ((stack.holding rest).popProtected, stack.holding rest) :=
  fixed.truncateLoop num

end Fixed

end StackObject

end HandlebarsC
