import HandlebarsC.Foundation.Denote
import HandlebarsC.Render.Inert
import HandlebarsC.Vm.Program

/-!
The VM in the middle of a template, seen as what the meaning of the template speaks of, and
what the primitive steps do to it.
-/

namespace HandlebarsC

open Effect Exec

namespace Render

variable {μ κ : Type}

/-- What a template runs in: a module in an environment, the mode it was compiled and is run in,
and the addresses of the maps of its context, all below a limit. -/
structure Stage (μ κ : Type) where
  env : Env μ κ
  mode : Mode
  module : μ
  owned : Nat → Prop
  limit : Nat
  platform : env.platform = mode.platform
  below : ∀ addr, owned addr → addr < limit

/-- The part of the VM that a template changes: operands and hashes of the expression in hand,
the scope, and the text so far. -/
structure View (μ : Type) where
  operands : List (Value μ)
  hashes : List (Value μ)
  scope : Scope μ
  text : Str

/-- The data of the VM has these entries. -/
inductive DataIs (owned : Nat → Prop) : Value μ → StrMap (Value μ) → Prop where
  | map (outside : ¬owned addr) : DataIs owned (.map addr entries) entries
  | other (notMap : value.type ≠ .map) : DataIs owned value []

/-- The stacks hold what the view says, and only what is below the operands is protected. -/
structure Stacked (view : View μ) (stackSet : Stacks μ) : Prop where
  operands : stackSet.stack = ⟨view.operands, 0⟩
  hashes : stackSet.hashStack = ⟨view.hashes, 0⟩
  contexts : stackSet.contextStack.v = view.scope.contexts
  contextProtect : stackSet.contextStack.protect ≤ view.scope.contexts.length
  blockParams : List.Forall₂ (fun value items => ∃ addr, value = .array addr items)
    stackSet.blockParamStack.v view.scope.blockParams
  blockParamProtect : stackSet.blockParamStack.protect ≤ view.scope.blockParams.length
  partialBlocks : stackSet.partialBlockStack = ⟨[], 0⟩

/-- The VM as the view says. -/
structure Stands (stage : Stage μ κ) (view : View μ) (machine : Machine μ κ) : Prop where
  module : machine.vm.module = some stage.module
  flags : machine.vm.flags = stage.mode.flags
  jmp : machine.vm.jmp = true
  helpers : ∃ addr, machine.vm.helpers = .map addr []
  logFunc : machine.vm.logFunc = none
  lastHelper : machine.vm.lastHelper = none
  buffer : ∃ addr, machine.vm.buffer = some ⟨addr, view.text⟩
  data : DataIs stage.owned machine.vm.data view.scope.data
  iterating : machine.vm.inIteration = view.scope.iterating
  lastContext : machine.vm.lastContext.isSome
  alloc : stage.limit ≤ machine.vm.alloc
  stackSet : ∃ stackSet, machine.vm.stackSet = some stackSet ∧ Stacked view stackSet

/-- A failure is an error that the VM has thrown, or the end of the process. -/
def signs : Signs Failure (Machine μ κ) where
  thrown failure machine := ∃ error, failure = .error error ∧ machine.vm.error = some error
  aborted failure _ := failure = .crash

/-- The procedure does what a meaning says, from this view to another. -/
abbrev Does (proc : Exec μ κ β) (result : Meaning α) (post : α → β → Machine μ κ → Prop)
    (machine : Machine μ κ) : Prop :=
  proc.Does signs result post machine

variable {stage : Stage μ κ} {view : View μ} {machine : Machine μ κ}

namespace Stands

/-- Other stacks -/
theorem withStacks (stands : Stands stage view machine) {next : View μ} {stackSet : Stacks μ}
    (stacked : Stacked next stackSet) (data : next.scope.data = view.scope.data := by rfl)
    (iterating : next.scope.iterating = view.scope.iterating := by rfl)
    (text : next.text = view.text := by rfl) :
    Stands stage next { machine with vm := { machine.vm with stackSet := some stackSet } } := by
  refine ⟨stands.module, stands.flags, stands.jmp, stands.helpers, stands.logFunc, stands.lastHelper,
    ?_, ?_, ?_, stands.lastContext, stands.alloc, stackSet, rfl, stacked⟩
  · rw [text]
    exact stands.buffer
  · rw [data]
    exact stands.data
  · rw [iterating]
    exact stands.iterating

theorem withAlloc (stands : Stands stage view machine) {alloc : Nat} (more : machine.vm.alloc ≤ alloc) :
    Stands stage view { machine with vm := { machine.vm with alloc := alloc } } :=
  { stands with alloc := stands.alloc.trans more }

theorem withLastContext (stands : Stands stage view machine) (cell : ContextCell μ) :
    Stands stage view { machine with vm := { machine.vm with lastContext := some cell } } :=
  { stands with lastContext := rfl }

theorem withoutLastHelper (stands : Stands stage view machine) :
    Stands stage view { machine with vm := { machine.vm with lastHelper := none } } :=
  { stands with lastHelper := rfl }

theorem withDelimiters (stands : Stands stage view machine) (delimOpen delimClose : Option Str) :
    Stands stage view { machine with vm :=
      { machine.vm with delimOpen := delimOpen, delimClose := delimClose } } :=
  { stands with }

theorem withText (stands : Stands stage view machine) (addr : Nat) (text : Str) :
    Stands stage { view with text := text }
      { machine with vm := { machine.vm with buffer := some ⟨addr, text⟩ } } := by
  obtain ⟨stackSet, present, stacked⟩ := stands.stackSet
  exact ⟨stands.module, stands.flags, stands.jmp, stands.helpers, stands.logFunc,
    stands.lastHelper, ⟨addr, rfl⟩, stands.data, stands.iterating, stands.lastContext, stands.alloc,
    stackSet, present, { stacked with }⟩

end Stands

theorem raise_does (stands : Stands stage view machine) (error : Error)
    {post : α → β → Machine μ κ → Prop} :
    Does (raise error : Exec μ κ β) (.error (.error error)) post machine := by
  unfold Exec.raise
  refine Proc.does_ran rfl (Proc.does_ran (readVm_ran _ _) ?_)
  rw [show (Vm.jmp _) = true from stands.jmp, if_pos rfl]
  exact ⟨error, rfl, rfl⟩

theorem raiseError_does (stands : Stands stage view machine) (msg : Str)
    {post : α → β → Machine μ κ → Prop} :
    Does (raiseError msg : Exec μ κ β) (fail msg) post machine := raise_does stands _

theorem abort_does {post : α → β → Machine μ κ → Prop} :
    Does (Proc.abort : Exec μ κ β) (.error .crash) post machine := rfl

/-- A new address is not one of the context's. -/
theorem allocate_does (stands : Stands stage view machine) :
    Does allocate (.ok ()) (fun _ addr after => ¬stage.owned addr ∧ Stands stage view after)
      machine := by
  have above : stage.limit ≤ machine.vm.freshAddr := stands.alloc.trans (Nat.le_max_left _ _)
  refine ⟨fun owned => ?_, stands.withAlloc ?_⟩
  · exact absurd (stage.below _ owned) (Nat.not_lt.mpr above)
  · exact (Nat.le_max_left _ _).trans (Nat.le_succ _)

section Stacks

variable (field : StackField μ α) {stackSet : Stacks μ}

theorem setStack_ran (present : machine.vm.stackSet = some stackSet) (stack : Stack α) :
    setStack field stack machine = (.ok () (Machine.withStack field machine stackSet stack), []) := by
  unfold setStack writeVm Proc.write Machine.withStack
  dsimp only
  rw [present]
  rfl

theorem push_ran (present : machine.vm.stackSet = some stackSet) (value : α)
    (room : (field.get stackSet).count < Stack.capacity) :
    push field value machine = (.ok () (Machine.withStack field machine stackSet
      { field.get stackSet with v := value :: (field.get stackSet).v }), []) := by
  unfold push
  rw [Proc.bind_ran (stackOf_ran field present)]
  simp only [Stack.push, room, if_true]
  exact setStack_ran field present _

theorem pop_ran (present : machine.vm.stackSet = some stackSet) {value : α} {rest : List α}
    (content : (field.get stackSet).v = value :: rest)
    (free : (field.get stackSet).protect ≤ rest.length) :
    pop field machine = (.ok (some value) (Machine.withStack field machine stackSet
      { field.get stackSet with v := rest }), [.pop field.name (field.get stackSet).count]) := by
  have unguarded : ¬(field.get stackSet).count < (field.get stackSet).protect := by
    rw [Stack.count, content, List.length_cons]
    omega
  unfold pop
  rw [Proc.bind_ran (stackOf_ran field present)]
  simp only [Stack.pop, content, unguarded, if_false]
  rw [@Proc.bind_logged _ _ _ _ _ (Proc.emit _) _ _ _ _ rfl, Proc.bind_ran (setStack_ran field present _)]
  rfl

end Stacks

theorem push_does (stands : Stands stage view machine) (value : Value μ)
    (room : view.operands.length < Stack.capacity) :
    Does (push StackField.stack value) (.ok ()) (fun _ _ after =>
      Stands stage { view with operands := value :: view.operands } after) machine := by
  obtain ⟨stackSet, present, stacked⟩ := stands.stackSet
  have operands : StackField.stack.get stackSet = ⟨view.operands, 0⟩ := stacked.operands
  refine Proc.does_end (push_ran StackField.stack present value (by rwa [operands])) ?_
  rw [operands]
  exact stands.withStacks { stacked with operands := rfl }

/-- A value that is the result goes on the stack. -/
theorem pushes_does (stands : Stands stage view machine) (value : Value μ)
    (room : view.operands.length < Stack.capacity) :
    Does (push StackField.stack value) (pure value) (fun value _ after =>
      Stands stage { view with operands := value :: view.operands } after) machine :=
  Proc.does_for value (push_does stands value room)

theorem pushHash_does (stands : Stands stage view machine) (value : Value μ)
    (room : view.hashes.length < Stack.capacity) :
    Does (push StackField.hashStack value) (.ok ()) (fun _ _ after =>
      Stands stage { view with hashes := value :: view.hashes } after) machine := by
  obtain ⟨stackSet, present, stacked⟩ := stands.stackSet
  have hashes : StackField.hashStack.get stackSet = ⟨view.hashes, 0⟩ := stacked.hashes
  refine Proc.does_end (push_ran StackField.hashStack present value (by rwa [hashes])) ?_
  rw [hashes]
  exact stands.withStacks { stacked with hashes := rfl }

/-- Nothing of an expression is protected. -/
theorem pop_does {value : Value μ} {operands : List (Value μ)} (stands : Stands stage view machine)
    (top : view.operands = value :: operands) :
    Does (pop StackField.stack) (.ok ()) (fun _ popped after => popped = some value ∧
      Stands stage { view with operands := operands } after) machine := by
  obtain ⟨stackSet, present, stacked⟩ := stands.stackSet
  have content : StackField.stack.get stackSet = ⟨value :: operands, 0⟩ := by
    rw [← top]
    exact stacked.operands
  refine Proc.does_end (pop_ran StackField.stack present
    (show (StackField.stack.get stackSet).v = value :: operands by rw [content])
    (by rw [content]; exact Nat.zero_le _)) ⟨rfl, ?_⟩
  rw [content]
  exact stands.withStacks { stacked with operands := rfl }

theorem popAssert_does {value : Value μ} {operands : List (Value μ)}
    (stands : Stands stage view machine) (top : view.operands = value :: operands) :
    Does (popAssert StackField.stack) (.ok ()) (fun _ popped after => popped = value ∧
      Stands stage { view with operands := operands } after) machine := by
  refine Proc.does_step (pop_does stands top) ?_
  rintro _ after ⟨rfl, stands⟩
  exact ⟨rfl, stands⟩

theorem popHash_does {value : Value μ} {hashes : List (Value μ)} (stands : Stands stage view machine)
    (top : view.hashes = value :: hashes) :
    Does (popAssert StackField.hashStack) (.ok ()) (fun _ popped after => popped = value ∧
      Stands stage { view with hashes := hashes } after) machine := by
  obtain ⟨stackSet, present, stacked⟩ := stands.stackSet
  have content : StackField.hashStack.get stackSet = ⟨value :: hashes, 0⟩ := by
    rw [← top]
    exact stacked.hashes
  refine Proc.does_ran (pop_ran StackField.hashStack present
    (show (StackField.hashStack.get stackSet).v = value :: hashes by rw [content])
    (by rw [content]; exact Nat.zero_le _)) ⟨rfl, ?_⟩
  rw [content]
  exact stands.withStacks { stacked with hashes := rfl }

theorem topContext_does (stands : Stands stage view machine)
    (nonempty : view.scope.contexts ≠ []) :
    Does topContext (.ok ()) (fun _ top after => top = view.scope.this ∧ after = machine)
      machine := by
  obtain ⟨stackSet, present, stacked⟩ := stands.stackSet
  obtain ⟨first, rest, contexts⟩ := List.exists_cons_of_ne_nil nonempty
  refine Proc.does_ran (stackOf_ran _ present) ?_
  have top : stackSet.contextStack.top = some first := by
    rw [Stack.top, stacked.contexts, contexts]
    rfl
  change Does (nonnull stackSet.contextStack.top) _ _ _
  rw [top]
  refine ⟨?_, rfl⟩
  rw [Scope.this, contexts]
  rfl

/-- Text goes to the end of the buffer. -/
theorem appendBuffer_does (stands : Stands stage view machine) (text : Str) :
    Does (appendBuffer text) (.ok ()) (fun _ _ after =>
      Stands stage { view with text := view.text ++ text } after) machine := by
  obtain ⟨addr, present⟩ := stands.buffer
  refine Proc.does_ran (readVm_ran _ _) ?_
  rw [present]
  exact stands.withText addr (view.text ++ text)

end Render

end HandlebarsC
