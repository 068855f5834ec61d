import HandlebarsC.Core.Value
import HandlebarsC.Foundation.Effect
import HandlebarsC.Serializer.Model

/-!
The state of `handlebars_vm.c`, over the type `μ` of modules it runs and the type
`κ` of cache states it shares, and the primitive steps that change it.
-/

namespace HandlebarsC

open Effect

/-- `struct handlebars_stack`, its last element first. -/
structure Stack (α : Type) where
  v : List α
  protect : Nat

namespace Stack

/-- `HANDLEBARS_VM_STACK_SIZE` -/
def capacity : Nat := 96

def empty : Stack α := ⟨[], 0⟩

def count (stack : Stack α) : Nat := stack.v.length

/-- `handlebars_stack_top` -/
def top (stack : Stack α) : Option α := stack.v.head?

/-- `GET`: counted from the top. -/
def get (stack : Stack α) (pos : Nat) : Option α := stack.v[pos]?

/-- `handlebars_stack_get`: counted from the bottom. -/
def getOffset (stack : Stack α) (offset : Nat) : Option α := stack.v.reverse[offset]?

/-- `handlebars_stack_push` on a stack that cannot grow. -/
def push (stack : Stack α) (value : α) : Option (Stack α) :=
  if stack.count < capacity then some { stack with v := value :: stack.v } else none

inductive Popped (α : Type) where
  | none
  | refused
  | some (value : α) (rest : Stack α)

/-- `handlebars_stack_pop` -/
def pop (stack : Stack α) : Popped α :=
  match stack.v with
  | [] => .none
  | value :: rest =>
    if stack.count < stack.protect then .refused else .some value { stack with v := rest }

/-- `handlebars_stack_save`: what to restore, and the stack protected. -/
def save (stack : Stack α) : Stack α := { stack with protect := stack.count }

/-- The loop of `handlebars_stack_truncate`; an error leaves what is left. -/
def truncateLoop (num protect : Nat) : List α → Except (List α) (List α)
  | [] => .ok []
  | value :: rest =>
    if (value :: rest).length ≤ num then .ok (value :: rest)
    else if (value :: rest).length < protect then .error (value :: rest)
    else truncateLoop num protect rest

end Stack

/-- What `invoke_partial` pushes on the partial block stack: a closure over the
module, the program and the depth of the stack. -/
structure PartialBlock (μ : Type) where
  addr : Nat
  moduleAddr : Nat
  module : μ
  program : Int
  depth : Nat

def PartialBlock.value (block : PartialBlock μ) : Value μ :=
  .closure block.addr .partialBlock
    [.ptr block.moduleAddr block.module, .integer block.program, .integer block.depth]

structure Stacks (μ : Type) where
  stack : Stack (Value μ)
  hashStack : Stack (Value μ)
  contextStack : Stack (Value μ)
  blockParamStack : Stack (Value μ)
  partialBlockStack : Stack (PartialBlock μ)

def Stacks.empty : Stacks μ := ⟨.empty, .empty, .empty, .empty, .empty⟩

/-- The string under `vm->buffer`. -/
structure Buffer where
  addr : Nat
  val : Str
  deriving DecidableEq, Repr

/-- What `vm->last_context` points to. -/
structure ContextCell (μ : Type) where
  addr : Nat
  value : Value μ

/-- `struct handlebars_vm`, with the error and the jump buffer of its context, the
maps that are being iterated and the next free address. -/
structure Vm (μ κ : Type) where
  cache : Option κ
  module : Option μ
  depth : Int
  flags : Flags
  buffer : Option Buffer
  data : Value μ
  helpers : Value μ
  partials : Value μ
  lastHelper : Option Str
  lastContext : Option (ContextCell μ)
  stackSet : Option (Stacks μ)
  logFunc : Option Nat
  delimOpen : Option Str
  delimClose : Option Str
  jmp : Bool
  error : Option Error
  inIteration : List Nat
  alloc : Nat

/-- `handlebars_vm_ctor`, in a context that has a jump buffer or not. -/
def vmCtor (jmp : Bool) : Vm μ κ where
  cache := none
  module := none
  depth := 0
  flags := 0
  buffer := none
  data := .null
  helpers := .map 0 []
  partials := .map 1 []
  lastHelper := none
  lastContext := none
  stackSet := none
  logFunc := none
  delimOpen := none
  delimClose := none
  jmp := jmp
  error := none
  inIteration := []
  alloc := 2

/-- Above everything allocated so far, the buffer included. -/
def Vm.freshAddr (vm : Vm μ κ) : Nat :=
  max vm.alloc (vm.buffer.elim 0 fun buffer => buffer.addr + 1)

inductive StackName where
  | stack
  | hashStack
  | contextStack
  | blockParamStack
  | partialBlockStack
  deriving DecidableEq, Repr

/-- One of the five stacks. -/
structure StackField (μ α : Type) where
  name : StackName
  get : Stacks μ → Stack α
  set : Stacks μ → Stack α → Stacks μ

namespace StackField

def stack : StackField μ (Value μ) :=
  ⟨.stack, Stacks.stack, fun stackSet stack => { stackSet with stack := stack }⟩

def hashStack : StackField μ (Value μ) :=
  ⟨.hashStack, Stacks.hashStack, fun stackSet stack => { stackSet with hashStack := stack }⟩

def contextStack : StackField μ (Value μ) :=
  ⟨.contextStack, Stacks.contextStack, fun stackSet stack => { stackSet with contextStack := stack }⟩

def blockParamStack : StackField μ (Value μ) :=
  ⟨.blockParamStack, Stacks.blockParamStack,
    fun stackSet stack => { stackSet with blockParamStack := stack }⟩

def partialBlockStack : StackField μ (PartialBlock μ) :=
  ⟨.partialBlockStack, Stacks.partialBlockStack,
    fun stackSet stack => { stackSet with partialBlockStack := stack }⟩

end StackField

/-- The number of elements on a stack. -/
def Stacks.count (stackSet : Stacks μ) : StackName → Nat
  | .stack => stackSet.stack.count
  | .hashStack => stackSet.hashStack.count
  | .contextStack => stackSet.contextStack.count
  | .blockParamStack => stackSet.blockParamStack.count
  | .partialBlockStack => stackSet.partialBlockStack.count

/-- A program in progress: what it was entered with, and the stack heights it found. -/
structure Activation (μ : Type) where
  module : μ
  program : Nat
  context : Value μ
  blockParams : Option (Value μ)
  heights : StackName → Nat

/-- What happened in a run. `caught` stands for an error in an execution that
`execute_template` or `handlebars_vm_execute_ex` caught. -/
inductive Event (μ κ : Type) where
  | opcode (vm : Vm μ κ) (activations : List (Activation μ)) (pc : Nat) (opcode : Opcode)
  | pop (name : StackName) (count : Nat)
  | caught
  | partialBlock

/-- The VM, and the programs in progress with the innermost first. -/
structure Machine (μ κ : Type) where
  vm : Vm μ κ
  activations : List (Activation μ)

abbrev Exec (μ κ : Type) := Proc (Machine μ κ) (Event μ κ)

/-- `struct handlebars_options` -/
structure Options (μ : Type) where
  name : Option Str
  hash : Option (Value μ)
  scope : Value μ
  data : Option (Value μ)
  inverse : Int
  program : Int

/-- What a registered helper does with the VM it is given. -/
inductive HelperCode (μ : Type) where
  | ret (value : Value μ)
  | throw (error : Error)
  | executeProgram (program : Int) (context : Value μ) (data blockParams : Option (Value μ))
      (next : Str → HelperCode μ)
  | call (value : Value μ) (argv : List (Value μ)) (next : Value μ → HelperCode μ)

/-- What the VM runs with and does not change. -/
structure Env (μ κ : Type) where
  platform : Platform
  /-- The module behind a value of `μ`. -/
  module : μ → Module
  /-- `handlebars_parse_ex`, `handlebars_compiler_compile_ex` and
  `handlebars_program_serialize` in a context of their own, with the address the
  module gets; there is no result when the process ends. -/
  compileTemplate : Nat → Flags → Str → Option μ
  /-- `handlebars_preprocess_delimiters`, whose errors end the process. -/
  preprocessDelimiters : Str → Option Str → Option Str → Option Str
  /-- The helpers and the log function the user registered. -/
  userHelper : Nat → List (Value μ) → Options μ → HelperCode μ
  /-- The handlers of the cache. -/
  cacheFind : κ → Str → Except Error (Option μ) × κ
  cacheAdd : κ → Str → μ → Except Error κ
  cacheRelease : κ → Str → μ → κ

namespace Exec

variable {μ κ α : Type}

def readVm (view : Vm μ κ → β) : Exec μ κ β := Proc.read fun machine => view machine.vm

theorem readVm_ran (view : Vm μ κ → α) (machine : Machine μ κ) :
    readVm view machine = (.ok (view machine.vm) machine, []) := rfl

def writeVm (change : Vm μ κ → Vm μ κ) : Exec μ κ Unit :=
  Proc.write fun machine => { machine with vm := change machine.vm }

/-- `handlebars_throw`, `handlebars_throw_ex`: without a jump buffer the process ends. -/
def raise (error : Error) : Exec μ κ α := do
  writeVm fun vm => { vm with error := some error }
  if ← readVm Vm.jmp then Proc.throw else Proc.abort

/-- `handlebars_throw(CONTEXT, HANDLEBARS_ERROR, …)` -/
def raiseError (msg : Str) : Exec μ κ α := raise ⟨.error, msg, LocInfo.zero⟩

/-- A pointer that must not be NULL. -/
def nonnull : Option α → Exec μ κ α
  | some value => pure value
  | none => Proc.abort

@[simp] theorem nonnull_some (value : α) : (nonnull (some value) : Exec μ κ α) = pure value := rfl

/-- A new address. -/
def allocate : Exec μ κ Nat := do
  let addr ← readVm Vm.freshAddr
  writeVm fun vm => { vm with alloc := addr + 1 }
  pure addr

def stackOf (field : StackField μ α) : Exec μ κ (Stack α) := do
  let stackSet ← nonnull (← readVm Vm.stackSet)
  pure (field.get stackSet)

theorem stackOf_ran (field : StackField μ α) {machine : Machine μ κ} {stackSet : Stacks μ}
    (present : machine.vm.stackSet = some stackSet) :
    stackOf field machine = (.ok (field.get stackSet) machine, []) := by
  unfold stackOf
  rw [Proc.bind_ran (readVm_ran _ _), present]
  rfl

def setStack (field : StackField μ α) (stack : Stack α) : Exec μ κ Unit :=
  writeVm fun vm => { vm with stackSet := vm.stackSet.map fun stackSet => field.set stackSet stack }

/-- `PUSH` -/
def push (field : StackField μ α) (value : α) : Exec μ κ Unit := do
  match (← stackOf field).push value with
  | some stack => setStack field stack
  | none => raise ⟨.stackOverflow, bytes "Stack overflow", LocInfo.zero⟩

/-- `POP` -/
def pop (field : StackField μ α) : Exec μ κ (Option α) := do
  let stack ← stackOf field
  match stack.pop with
  | .none => pure none
  | .refused => raise ⟨.stackOverflow, bytes "Attempting to pop protected stack segment i=" ++
      decimal stack.count ++ bytes " protect=" ++ decimal stack.protect, LocInfo.zero⟩
  | .some value rest => do
    Proc.emit (.pop field.name stack.count)
    setStack field rest
    pure (some value)

/-- `HBS_ASSERT(POP(…))` -/
def popAssert (field : StackField μ α) : Exec μ κ α := do
  nonnull (← pop field)

/-- `handlebars_stack_restore` -/
def restore (field : StackField μ α) (protect count : Nat) : Exec μ κ Unit := do
  let stack ← stackOf field
  match Stack.truncateLoop count protect stack.v with
  | .ok rest => setStack field ⟨rest, protect⟩
  | .error rest => do
    setStack field ⟨rest, protect⟩
    raise ⟨.stackOverflow, bytes "Attempting to pop protected stack segment i=" ++
      decimal rest.length ++ bytes " protect=" ++ decimal protect, LocInfo.zero⟩

/-- Runs a procedure with one more partial block on the stack. -/
def withPartialBlock (block : PartialBlock μ) (body : Exec μ κ α) : Exec μ κ α := do
  push StackField.partialBlockStack block
  let result ← body
  let _ ← pop StackField.partialBlockStack
  pure result

/-- `TOP(vm->contextStack)`, dereferenced. -/
def topContext : Exec μ κ (Value μ) := do
  nonnull (← stackOf StackField.contextStack).top

/-- `vm->buffer = handlebars_string_append(vm->buffer, …)` -/
def appendBuffer (text : Str) : Exec μ κ Unit := do
  let buffer ← nonnull (← readVm Vm.buffer)
  writeVm fun vm => { vm with buffer := some { buffer with val := buffer.val ++ text } }

/-- `handlebars_value_init_json_object` into a value that holds `stale`. -/
def valueOfJson (stale : Value μ) : Json → Exec μ κ (Value μ)
  | .null => pure stale
  | .boolean value => pure (.boolean value)
  | .int value => pure (.integer value)
  | .double value => pure (.float value)
  | .string value => pure (.string value false)
  | .array items => do
    let addr ← allocate
    pure (.user addr (.array items))
  | .object entries => do
    let addr ← allocate
    pure (.user addr (.object entries))

def isJsonNull : Json → Bool
  | .null => true
  | _ => false

/-- What the JSON library finds, a JSON `null` being a NULL pointer. -/
def foundJson (item : Option Json) : Exec μ κ (Option (Value μ)) :=
  match item with
  | some item =>
    if isJsonNull item then pure none
    else do
      let value ← valueOfJson .null item
      pure (some value)
  | none => pure none

/-- `json_object_object_get`, which takes a C string. -/
def jsonMember (entries : List (Str × Json)) (key : Str) : Option Json :=
  (entries.find? fun entry => entry.1 == cstring key).map (·.2)

/-- `handlebars_value_map_find` -/
def mapFind (platform : Platform) (value : Value μ) (key : Str) : Exec μ κ (Option (Value μ)) :=
  match value with
  | .map _ entries => pure (StrMap.find platform.hash entries key)
  | .user _ (.object entries) => foundJson (jsonMember entries key)
  | _ => pure none

/-- `(int) index`, then the index of a JSON array. -/
def jsonIndex (index : Int) : Option Nat :=
  let low := index % 2 ^ 32
  if low < 2 ^ 31 then some low.toNat else none

/-- `handlebars_value_array_find` -/
def arrayFind (value : Value μ) (index : Int) : Exec μ κ (Option (Value μ)) :=
  match value with
  | .array _ items => pure (if index < 0 then none else items[index.toNat]?)
  | .user _ (.array items) => foundJson ((jsonIndex index).bind fun index => items[index]?)
  | _ => pure none

end Exec

end HandlebarsC
