import HandlebarsC.Vm.Opcodes

/-!
`handlebars_vm_execute_program_ex` and the recursion of the VM, cut off at a depth
of calls: a run that stays below it is a run of the VM.
-/

namespace HandlebarsC

open Effect

namespace Exec

variable {μ κ : Type}

/-- `handlebars_vm_accept` from an opcode on. -/
def accept (env : Env μ κ) (rec : Rec μ κ) : Nat → List Opcode → Exec μ κ Unit
  | _, [] => Proc.abort
  | pc, opcode :: rest =>
    if opcode.type = .ret then pure ()
    else do
      let machine ← Proc.read id
      Proc.emit (.opcode machine.vm machine.activations pc opcode)
      acceptOpcode env rec opcode
      accept env rec (pc + 1) rest

/-- The opcodes of a module from an offset on. -/
def codeFrom (module : Module) (offset : Nat) : List Opcode :=
  (module.opcodes.drop offset).map ModuleOpcode.erase

def saveStacks (stackSet : Stacks μ) : Stacks μ :=
  { stack := stackSet.stack.save
    hashStack := stackSet.hashStack.save
    contextStack := stackSet.contextStack.save
    blockParamStack := stackSet.blockParamStack.save
    partialBlockStack := stackSet.partialBlockStack.save }

/-- The five calls of `handlebars_stack_restore`. -/
def restoreStacks (saved : Stacks μ) : Exec μ κ Unit := do
  restore StackField.stack saved.stack.protect saved.stack.count
  restore StackField.hashStack saved.hashStack.protect saved.hashStack.count
  restore StackField.contextStack saved.contextStack.protect saved.contextStack.count
  restore StackField.blockParamStack saved.blockParamStack.protect saved.blockParamStack.count
  restore StackField.partialBlockStack saved.partialBlockStack.protect
    saved.partialBlockStack.count

/-- Pushes the context, unless the same one is on top. -/
def pushContext (env : Env μ κ) (context : Value μ) : Exec μ κ Unit := do
  let stack ← stackOf StackField.contextStack
  match stack.top with
  | some top =>
    if top.eq env.platform context then pure () else push StackField.contextStack context
  | none => push StackField.contextStack context

/-- A new empty buffer. -/
def newBuffer : Exec μ κ Unit := do
  let addr ← allocate
  writeVm fun vm => { vm with buffer := some ⟨addr, []⟩ }

def setData (data : Option (Value μ)) : Exec μ κ Unit :=
  match data with
  | some data => writeVm fun vm => { vm with data := data }
  | none => pure ()

def pushBlockParams (blockParams : Option (Value μ)) : Exec μ κ Unit :=
  match blockParams with
  | some blockParams => push StackField.blockParamStack blockParams
  | none => pure ()

/-- What runs between saving and restoring the stacks. -/
def executeBody (env : Env μ κ) (rec : Rec μ κ) (offset : Nat) (module : Module)
    (context : Value μ) (data blockParams : Option (Value μ)) : Exec μ κ Unit := do
  pushContext env context
  setData data
  pushBlockParams blockParams
  accept env rec 0 (codeFrom module offset)

/-- Enters a program: the stacks are saved and the activation begins. -/
def enter (activation : Activation μ) : Exec μ κ Unit := do
  writeVm fun vm => { vm with stackSet := vm.stackSet.map saveStacks }
  Proc.write fun machine =>
    { machine with activations := activation :: machine.activations }

/-- Ends the innermost activation: everything is as it was, but for the `last_context`,
which is cleared, and the buffer, which is the result. -/
def leave (prev : Vm μ κ) (saved : Stacks μ) (data : Option (Value μ)) : Exec μ κ Str := do
  restoreStacks saved
  writeVm fun vm => { vm with
    lastContext := vm.lastContext.map fun cell => { cell with value := .null } }
  setData (data.map fun _ => prev.data)
  Proc.write fun machine => { machine with activations := machine.activations.tail }
  let buffer ← nonnull (← readVm Vm.buffer)
  writeVm fun vm => { vm with buffer := prev.buffer }
  pure buffer.val

/-- `handlebars_vm_execute_program_ex` -/
def executeProgramEx (env : Env μ κ) (rec : Rec μ κ) (program : Int) (context : Value μ)
    (data blockParams : Option (Value μ)) : Exec μ κ Str :=
  if program < 0 then pure []
  else do
    let prev ← readVm id
    let module ← nonnull prev.module
    if program ≥ (env.module module).programCount then
      raiseError (bytes "Invalid program: " ++ formatLong program)
    else do
      let entry ← nonnull (env.module module).programs[program.toNat]?
      newBuffer
      let stackSet ← nonnull prev.stackSet
      enter ⟨module, program.toNat, context, blockParams, stackSet.count⟩
      executeBody env rec entry.opcodeOffset (env.module module) context data blockParams
      leave prev stackSet data

/-- The VM with calls nested at most `fuel` deep. -/
def level (env : Env μ κ) : Nat → Rec μ κ
  | 0 =>
    { executeProgramEx := fun _ _ _ _ => Proc.exhaust
      valueCall := fun _ _ _ => Proc.exhaust }
  | fuel + 1 =>
    { executeProgramEx := executeProgramEx env (level env fuel)
      valueCall := valueCall env (level env fuel) }

end Exec

end HandlebarsC
