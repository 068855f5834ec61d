import HandlebarsC.Vm.Program

/-!
What every call of the VM gives back as it found it, the stacks that paths are resolved
against included, and what then holds at every opcode that is executed on the way.
-/

namespace HandlebarsC

open Effect

/-- The stacks on which only programs and partial blocks push. -/
structure Scopes (μ : Type) where
  contextStack : Stack (Value μ)
  blockParamStack : Stack (Value μ)
  partialBlockStack : Stack (PartialBlock μ)

def Stacks.scopes (stackSet : Stacks μ) : Scopes μ :=
  ⟨stackSet.contextStack, stackSet.blockParamStack, stackSet.partialBlockStack⟩

/-- What the user has registered with a VM. -/
structure Registered (μ : Type) where
  helpers : Value μ
  partials : Value μ
  logFunc : Option Nat

/-- What a VM works with while it executes the opcodes of one program. -/
structure Setting (μ : Type) where
  data : Value μ
  inIteration : List Nat
  module : Option μ
  flags : Flags
  registered : Registered μ
  scopes : Scopes μ

def Vm.scopes (vm : Vm μ κ) : Scopes μ := (vm.stackSet.getD .empty).scopes

def Vm.registered (vm : Vm μ κ) : Registered μ := ⟨vm.helpers, vm.partials, vm.logFunc⟩

def Vm.setting (vm : Vm μ κ) : Setting μ :=
  ⟨vm.data, vm.inIteration, vm.module, vm.flags, vm.registered, vm.scopes⟩

namespace Scopes

/-- Nothing of the outer stacks has been taken away. -/
structure Below (outer inner : Scopes μ) : Prop where
  contextStack : outer.contextStack.v <:+ inner.contextStack.v
  blockParamStack : outer.blockParamStack.v <:+ inner.blockParamStack.v
  partialBlockStack : outer.partialBlockStack.v <:+ inner.partialBlockStack.v

theorem Below.refl (scopes : Scopes μ) : Below scopes scopes :=
  ⟨List.suffix_rfl, List.suffix_rfl, List.suffix_rfl⟩

theorem Below.trans {outer middle inner : Scopes μ} (front : Below outer middle)
    (rest : Below middle inner) : Below outer inner :=
  ⟨front.contextStack.trans rest.contextStack, front.blockParamStack.trans rest.blockParamStack,
    front.partialBlockStack.trans rest.partialBlockStack⟩

/-- The context stack of a program: the same context is not pushed twice. -/
def withContext (platform : Platform) (context : Value μ) (stack : List (Value μ)) :
    List (Value μ) :=
  match stack.head? with
  | some top => if top.eq platform context then stack else context :: stack
  | none => [context]

/-- What a program finds that is entered. -/
def entered (env : Env μ κ) (context : Value μ) (blockParams : Option (Value μ))
    (scopes : Scopes μ) : Scopes μ where
  contextStack :=
    ⟨withContext env.platform context scopes.contextStack.v, scopes.contextStack.count⟩
  blockParamStack :=
    ⟨blockParams.toList ++ scopes.blockParamStack.v, scopes.blockParamStack.count⟩
  partialBlockStack := scopes.partialBlockStack.save

/-- With one more partial block. -/
def opened (block : PartialBlock μ) (scopes : Scopes μ) : Scopes μ :=
  { scopes with partialBlockStack :=
      ⟨block :: scopes.partialBlockStack.v, scopes.partialBlockStack.protect⟩ }

theorem suffix_withContext (platform : Platform) (context : Value μ) (stack : List (Value μ)) :
    stack <:+ withContext platform context stack := by
  unfold withContext
  cases stack with
  | nil => exact List.nil_suffix
  | cons top rest =>
    dsimp only [List.head?_cons]
    split
    · exact List.suffix_rfl
    · exact List.suffix_cons context _

theorem below_entered (env : Env μ κ) (context : Value μ) (blockParams : Option (Value μ))
    (scopes : Scopes μ) : Below scopes (scopes.entered env context blockParams) :=
  ⟨suffix_withContext _ _ _, List.suffix_append _ _, List.suffix_rfl⟩

theorem below_opened (block : PartialBlock μ) (scopes : Scopes μ) :
    Below scopes (scopes.opened block) :=
  ⟨List.suffix_rfl, List.suffix_rfl, List.suffix_cons block _⟩

/-- Without the innermost block the scopes are as before. -/
theorem closed {last stackSet : Stacks μ} {block : PartialBlock μ}
    (inner : last.scopes = stackSet.scopes.opened block) :
    ({ last with partialBlockStack :=
        { last.partialBlockStack with v := stackSet.partialBlockStack.v } } : Stacks μ).scopes =
      stackSet.scopes := by
  have contexts := congrArg contextStack inner
  have params := congrArg blockParamStack inner
  have protects := congrArg (fun scopes => scopes.partialBlockStack.protect) inner
  unfold Stacks.scopes at contexts params protects ⊢
  dsimp only [opened] at contexts params protects ⊢
  rw [contexts, params, protects]

end Scopes

/-- A property of the scopes and the programs in progress that holds on when a program is
entered, when a partial block is opened and when the block around a partial block is. -/
structure Invariant (env : Env μ κ) where
  holds : Scopes μ → List (Activation μ) → Prop
  enters : ∀ {scopes activations} (activation : Activation μ), holds scopes activations →
    holds (scopes.entered env activation.context activation.blockParams) (activation :: activations)
  opens : ∀ {scopes activations} (block : PartialBlock μ),
    block.depth = scopes.partialBlockStack.count → holds scopes activations →
      holds (scopes.opened block) activations
  reopens : ∀ {scopes activations depth} (block : PartialBlock μ),
    scopes.partialBlockStack.getOffset depth = some block → holds scopes activations →
      holds (scopes.opened block) activations

/-- What always holds. -/
def Invariant.any (env : Env μ κ) : Invariant env where
  holds _ _ := True
  enters _ _ := trivial
  opens _ _ _ := trivial
  reopens _ _ _ := trivial

/-- An opcode is executed by a program inside those in progress, on top of their scopes. -/
def Event.Within {env : Env μ κ} (inv : Invariant env) (machine : Machine μ κ) :
    Event μ κ → Prop
  | opcode vm activations _ _ => inv.holds vm.scopes activations ∧
      (∃ inner activation, activations = inner ++ activation :: machine.activations) ∧
      machine.vm.scopes.Below vm.scopes ∧ vm.registered = machine.vm.registered
  | _ => True

/-- No error is caught. -/
def Event.Uncaught : Event μ κ → Prop
  | caught => False
  | _ => True

theorem Event.Within.below {env : Env μ κ} {inv : Invariant env} {event : Event μ κ}
    {before after : Machine μ κ} (within : event.Within inv after)
    (scopes : before.vm.scopes.Below after.vm.scopes)
    (registered : after.vm.registered = before.vm.registered)
    (activations : after.activations = before.activations) : event.Within inv before := by
  cases event with
  | opcode vm programs pc opcode =>
    obtain ⟨holds, present, below, same⟩ := within
    exact ⟨holds, by rwa [← activations], scopes.trans below, same.trans registered⟩
  | _ => trivial

/-- The machine with another stack in the place of one. -/
def Machine.withStack (field : StackField μ α) (machine : Machine μ κ) (stackSet : Stacks μ)
    (stack : Stack α) : Machine μ κ :=
  { machine with vm := { machine.vm with stackSet := some (field.set stackSet stack) } }

/-- With a mark on the map at an address, and without it. -/
def Machine.marked (machine : Machine μ κ) (addr : Nat) : Machine μ κ :=
  { machine with vm := { machine.vm with inIteration := addr :: machine.vm.inIteration } }

def Machine.unmarked (machine : Machine μ κ) (addr : Nat) : Machine μ κ :=
  { machine with vm := { machine.vm with inIteration := machine.vm.inIteration.erase addr } }

namespace Exec

variable {μ κ : Type} {env : Env μ κ}

theorem logs_raise (error : Error) {machine : Machine μ κ} {quiet seen : Event μ κ → Prop}
    {post : α → Machine μ κ → Prop} :
    (raise error : Exec μ κ α).Logs quiet seen post (fun _ => True) machine := by
  unfold raise
  apply Proc.logs_bind
  apply Proc.logs_write
  apply Proc.logs_bind
  apply Proc.logs_read
  exact Proc.logs_ite (fun _ => Proc.logs_throw trivial) fun _ => Proc.logs_abort trivial

theorem logs_nonnull {value : Option α} {machine : Machine μ κ} {quiet seen : Event μ κ → Prop}
    {post : α → Machine μ κ → Prop} (holds : ∀ content, value = some content → post content machine) :
    (nonnull value : Exec μ κ α).Logs quiet seen post (fun _ => True) machine := by
  cases value with
  | none => exact Proc.logs_abort trivial
  | some content => exact Proc.logs_pure (holds content rfl)

theorem scopes_of {machine : Machine μ κ} {stackSet : Stacks μ}
    (present : machine.vm.stackSet = some stackSet) : machine.vm.scopes = stackSet.scopes := by
  unfold Vm.scopes
  rw [present]
  rfl

section Stacks

variable (field : StackField μ α) {machine : Machine μ κ} {quiet seen : Event μ κ → Prop}

theorem stackOf_logs {post : Stack α → Machine μ κ → Prop}
    (holds : ∀ stackSet, machine.vm.stackSet = some stackSet → post (field.get stackSet) machine) :
    (stackOf field : Exec μ κ (Stack α)).Logs quiet seen post (fun _ => True) machine := by
  unfold stackOf
  apply Proc.logs_bind
  apply Proc.logs_read
  apply Proc.logs_bind
  exact logs_nonnull fun stackSet present => Proc.logs_pure (holds stackSet present)

theorem setStack_logs {stackSet : Stacks μ} (present : machine.vm.stackSet = some stackSet)
    (stack : Stack α) {post : Unit → Machine μ κ → Prop}
    (holds : post () (Machine.withStack field machine stackSet stack)) :
    (setStack field stack : Exec μ κ Unit).Logs quiet seen post (fun _ => True) machine := by
  apply Proc.logs_write
  unfold Machine.withStack at holds
  dsimp only
  rw [present]
  exact holds

theorem push_logs (value : α) {post : Unit → Machine μ κ → Prop}
    (holds : ∀ stackSet, machine.vm.stackSet = some stackSet → post () (Machine.withStack field
      machine stackSet { field.get stackSet with v := value :: (field.get stackSet).v })) :
    (push field value : Exec μ κ Unit).Logs quiet seen post (fun _ => True) machine := by
  unfold push
  apply Proc.logs_bind
  refine stackOf_logs field fun stackSet present => ?_
  by_cases room : (field.get stackSet).count < Stack.capacity
  · simp only [Stack.push, room, if_true]
    exact setStack_logs field present _ (holds stackSet present)
  · simp only [Stack.push, room, if_false]
    exact logs_raise _

theorem pop_logs {post : Option α → Machine μ κ → Prop}
    (shown : ∀ count, seen (.pop field.name count))
    (empty : ∀ stackSet, machine.vm.stackSet = some stackSet → (field.get stackSet).v = [] →
      post none machine)
    (holds : ∀ stackSet value rest, machine.vm.stackSet = some stackSet →
      (field.get stackSet).v = value :: rest → post (some value)
        (Machine.withStack field machine stackSet { field.get stackSet with v := rest })) :
    (pop field : Exec μ κ (Option α)).Logs quiet seen post (fun _ => True) machine := by
  unfold pop
  apply Proc.logs_bind
  refine stackOf_logs field fun stackSet present => ?_
  cases content : (field.get stackSet).v with
  | nil =>
    simp only [Stack.pop, content]
    exact Proc.logs_pure (empty stackSet present content)
  | cons value rest =>
    by_cases guarded : (field.get stackSet).count < (field.get stackSet).protect
    · simp only [Stack.pop, content, guarded, if_true]
      exact logs_raise _
    · simp only [Stack.pop, content, guarded, if_false]
      apply Proc.logs_bind
      refine Proc.logs_emit fun _ => ⟨shown _, ?_⟩
      apply Proc.logs_bind
      refine setStack_logs field present _ ?_
      exact Proc.logs_pure (holds stackSet value rest present content)

theorem restore_logs (protect count : Nat) {post : Unit → Machine μ κ → Prop}
    (holds : ∀ stackSet rest, machine.vm.stackSet = some stackSet →
      Stack.truncateLoop count protect (field.get stackSet).v = .ok rest →
        post () (Machine.withStack field machine stackSet ⟨rest, protect⟩)) :
    (restore field protect count : Exec μ κ Unit).Logs quiet seen post (fun _ => True) machine := by
  unfold restore
  apply Proc.logs_bind
  refine stackOf_logs field fun stackSet present => ?_
  cases truncated : Stack.truncateLoop count protect (field.get stackSet).v with
  | ok rest => exact setStack_logs field present _ (holds stackSet rest present truncated)
  | error rest =>
    apply Proc.logs_bind
    exact setStack_logs field present _ (logs_raise _)

end Stacks

/-- The setting and the programs in progress are the same. -/
structure Held (before after : Machine μ κ) : Prop where
  setting : after.vm.setting = before.vm.setting
  activations : after.activations = before.activations

theorem Held.refl (machine : Machine μ κ) : Held machine machine := ⟨rfl, rfl⟩

theorem Held.trans {first middle last : Machine μ κ} (front : Held first middle)
    (rest : Held middle last) : Held first last :=
  ⟨rest.setting.trans front.setting, rest.activations.trans front.activations⟩

theorem Held.scopes {before after : Machine μ κ} (held : Held before after) :
    after.vm.scopes = before.vm.scopes := congrArg Setting.scopes held.setting

/-- With `exact`, a procedure that ends otherwise than by returning also gives all back. -/
def kept (inv : Invariant env) (exact : Bool) : Frame (Machine μ κ) (Event μ κ) where
  ready machine := inv.holds machine.vm.scopes machine.activations
  quiet := Event.Uncaught
  logs machine event := event.Within inv machine
  stays := Held
  leaves before after := exact = true → Held before after
  stays_refl _ := .refl _
  stays_trans front rest := front.trans rest
  ready_after ready stayed := by rwa [stayed.scopes, stayed.activations]
  logs_after stayed logged := logged.below (stayed.scopes ▸ .refl _)
    (congrArg Setting.registered stayed.setting) stayed.activations
  leaves_refl _ _ := .refl _
  leaves_after front rest isExact := front.trans (rest isExact)

def Kept (inv : Invariant env) (exact : Bool) (proc : Exec μ κ α) : Prop :=
  ∀ machine, (kept inv exact).Keeps proc machine

variable {inv : Invariant env} {exact : Bool}

namespace Kept

theorem pure (value : α) : Kept inv exact (Pure.pure value : Exec μ κ α) :=
  fun _ => Frame.keeps_pure value

theorem read (view : Machine μ κ → α) : Kept inv exact (Proc.read view : Exec μ κ α) :=
  fun _ => Frame.keeps_read view

theorem throw : Kept inv exact (Proc.throw : Exec μ κ α) := fun _ => Frame.keeps_throw

theorem abort : Kept inv exact (Proc.abort : Exec μ κ α) := fun _ => Frame.keeps_abort

theorem exhaust : Kept inv exact (Proc.exhaust : Exec μ κ α) := fun _ => Frame.keeps_exhaust

theorem bind {first : Exec μ κ β} {next : β → Exec μ κ α} (front : Kept inv exact first)
    (rest : ∀ value, Kept inv exact (next value)) : Kept inv exact (first >>= next) :=
  fun machine => (front machine).bind fun value after _ => rest value after

theorem ite {condition : Prop} [Decidable condition] {first second : Exec μ κ α}
    (holds : Kept inv exact first) (fails : Kept inv exact second) :
    Kept inv exact (if condition then first else second) :=
  fun machine => .ite (fun _ => holds machine) fun _ => fails machine

theorem readVm (view : Vm μ κ → α) : Kept inv exact (Exec.readVm view : Exec μ κ α) := read _

theorem writeVm {change : Vm μ κ → Vm μ κ} (same : ∀ vm, (change vm).setting = vm.setting) :
    Kept inv exact (Exec.writeVm change : Exec μ κ Unit) :=
  fun _ _ => Proc.logs_write ⟨same _, rfl⟩

theorem emit {event : Event μ κ} (within : ∀ machine, event.Within inv machine) :
    Kept inv exact (Proc.emit event : Exec μ κ Unit) :=
  fun machine _ => Proc.logs_emit fun _ => ⟨within machine, .refl machine⟩

/-- What a `setjmp` catches counts, so there is nothing to recover from. -/
theorem catching {body : Exec μ κ (Option α)} (kept : Kept inv false body)
    (activations : List (Activation μ)) :
    Kept inv false (Proc.catching body (giveUp activations)) := by
  intro machine ready
  refine Proc.logs_catching (Proc.logs_mono (kept machine ready) (fun _ logged => logged)
    (fun _ _ stayed => stayed) ?_)
  intro after _
  refine ⟨nofun, fun quiet => ?_⟩
  exact (quiet .caught (List.mem_append_left _ (List.mem_singleton_self _))).elim

/-- A body that has changed nothing when it throws. -/
theorem tried {body : Exec μ κ α} (kept : Kept inv true body) (value : α) :
    Kept inv exact (Proc.catching body (Pure.pure value)) := by
  intro machine ready
  refine Proc.logs_catching (Proc.logs_mono (kept machine ready) (fun _ logged => logged)
    (fun _ _ stayed => stayed) ?_)
  intro after left
  exact ⟨fun _ => left rfl, Proc.logs_pure (left rfl)⟩

theorem raise (error : Error) : Kept inv exact (Exec.raise error : Exec μ κ α) := by
  unfold Exec.raise
  refine .bind (.writeVm fun _ => rfl) fun _ => ?_
  exact .bind (.readVm _) fun _ => .ite .throw .abort

theorem raiseError (msg : Str) : Kept inv exact (Exec.raiseError msg : Exec μ κ α) := .raise _

theorem nonnull (value : Option α) : Kept inv exact (Exec.nonnull value : Exec μ κ α) := by
  cases value with
  | none => exact .abort
  | some value => exact .pure value

theorem allocate : Kept inv exact (Exec.allocate : Exec μ κ Nat) := by
  unfold Exec.allocate
  refine .bind (.readVm _) fun addr => ?_
  exact .bind (.writeVm fun _ => rfl) fun _ => .pure addr

section Stacks

/-- The operand and the hash stack are not among the scopes. -/
class Operand (field : StackField μ α) : Prop where
  scopes : ∀ stackSet stack, (field.set stackSet stack).scopes = stackSet.scopes

instance : Operand (StackField.stack : StackField μ _) := ⟨fun _ _ => rfl⟩

instance : Operand (StackField.hashStack : StackField μ _) := ⟨fun _ _ => rfl⟩

variable (field : StackField μ α)

theorem stackOf : Kept inv exact (Exec.stackOf field : Exec μ κ (Stack α)) := by
  unfold Exec.stackOf
  exact .bind (.readVm _) fun _ => .bind (.nonnull _) fun _ => .pure _

variable [Operand field]

theorem setStack (stack : Stack α) :
    Kept inv exact (Exec.setStack field stack : Exec μ κ Unit) := by
  refine .writeVm fun vm => congrArg
    (Setting.mk vm.data vm.inIteration vm.module vm.flags vm.registered) ?_
  unfold Vm.scopes
  cases vm.stackSet with
  | none => rfl
  | some stackSet => exact Operand.scopes stackSet stack

theorem push (value : α) : Kept inv exact (Exec.push field value : Exec μ κ Unit) := by
  unfold Exec.push
  refine .bind (.stackOf field) fun stack => ?_
  cases stack.push value with
  | none => exact .raise _
  | some stack => exact .setStack field stack

theorem pop : Kept inv exact (Exec.pop field : Exec μ κ (Option α)) := by
  unfold Exec.pop
  refine .bind (.stackOf field) fun stack => ?_
  cases stack.pop with
  | none => exact .pure none
  | refused => exact .raise _
  | some value rest =>
    refine .bind (.emit fun _ => trivial) fun _ => ?_
    exact .bind (.setStack field rest) fun _ => .pure (some value)

theorem popAssert : Kept inv exact (Exec.popAssert field : Exec μ κ α) :=
  .bind (.pop field) fun _ => .nonnull _

end Stacks

theorem topContext : Kept inv exact (Exec.topContext : Exec μ κ (Value μ)) :=
  .bind (.stackOf _) fun _ => .nonnull _

theorem appendBuffer (text : Str) : Kept inv exact (Exec.appendBuffer text : Exec μ κ Unit) := by
  unfold Exec.appendBuffer
  refine .bind (.readVm _) fun _ => .bind (.nonnull _) fun buffer => ?_
  exact .writeVm fun _ => rfl

theorem valueOfJson (stale : Value μ) (json : Json) :
    Kept inv exact (Exec.valueOfJson stale json : Exec μ κ (Value μ)) := by
  cases json with
  | array items => exact .bind .allocate fun _ => .pure _
  | object entries => exact .bind .allocate fun _ => .pure _
  | _ => exact .pure _

theorem foundJson (item : Option Json) :
    Kept inv exact (Exec.foundJson item : Exec μ κ (Option (Value μ))) := by
  unfold Exec.foundJson
  cases item with
  | none => exact .pure none
  | some item => exact .ite (.pure none) (.bind (.valueOfJson _ item) fun _ => .pure _)

theorem mapFind (platform : Platform) (value : Value μ) (key : Str) :
    Kept inv exact (Exec.mapFind platform value key : Exec μ κ (Option (Value μ))) := by
  unfold Exec.mapFind
  split
  · exact .pure _
  · exact .foundJson _
  · exact .pure none

theorem arrayFind (value : Value μ) (index : Int) :
    Kept inv exact (Exec.arrayFind value index : Exec μ κ (Option (Value μ))) := by
  unfold Exec.arrayFind
  split
  · exact .pure _
  · exact .foundJson _
  · exact .pure none

end Kept

/-- The functions that the VM comes back to give all that back. -/
structure Rec.Kept (inv : Invariant env) (rec : Rec μ κ) : Prop where
  executeProgramEx : ∀ program context data blockParams,
    Exec.Kept inv false (rec.executeProgramEx program context data blockParams)
  valueCall : ∀ value argv options, Exec.Kept inv false (rec.valueCall value argv options)

namespace Kept

variable {rec : Rec μ κ}

section Execute

theorem executeProgram (calls : Rec.Kept inv rec) (program : Int) (context : Value μ) :
    Kept inv false (Exec.executeProgram rec program context) :=
  calls.executeProgramEx _ _ _ _

/-- Another module is in force, and everything else as before. -/
structure Switched (before after : Machine μ κ) : Prop where
  setting : { after.vm.setting with module := before.vm.module, flags := before.vm.flags } =
    before.vm.setting
  activations : after.activations = before.activations

theorem Switched.scopes {before after : Machine μ κ} (switched : Switched before after) :
    after.vm.scopes = before.vm.scopes :=
  congrArg Setting.scopes switched.setting

theorem Switched.held {first middle last : Machine μ κ} (switched : Switched first middle)
    (held : Held middle last) : Switched first last := by
  refine ⟨?_, held.activations.trans switched.activations⟩
  rw [held.setting, switched.setting]

theorem setupStacks_logs {machine : Machine μ κ} {quiet seen : Event μ κ → Prop}
    {post : Unit → Machine μ κ → Prop} (holds : ∀ after, Held machine after → post () after) :
    (Exec.setupStacks : Exec μ κ Unit).Logs quiet seen post (fun _ => True) machine := by
  unfold Exec.setupStacks Exec.allocate
  apply Proc.logs_bind
  apply Proc.logs_write
  apply Proc.logs_bind
  apply Proc.logs_bind
  apply Proc.logs_read
  apply Proc.logs_bind
  apply Proc.logs_write
  apply Proc.logs_pure
  apply Proc.logs_write
  exact holds _ ⟨rfl, rfl⟩

theorem executeModule_logs (module : μ) (context : Value μ) (program : Int)
    (data blockParams : Option (Value μ)) {machine : Machine μ κ} {seen : Event μ κ → Prop}
    (runs : ∀ between, Switched machine between →
      (rec.executeProgramEx program context data blockParams).Logs Event.Uncaught seen
        (fun _ => Held between) (fun _ => True) between) :
    (Exec.executeModule env rec module context program data blockParams).Logs Event.Uncaught seen
      (fun _ => Switched machine) (fun _ => True) machine := by
  unfold Exec.executeModule
  apply Proc.logs_bind
  apply Proc.logs_write
  apply Proc.logs_bind
  refine setupStacks_logs fun between stayed => ?_
  apply Proc.logs_bind
  apply Proc.logs_write
  apply Proc.logs_bind
  have switched : Switched machine { between with vm := { between.vm with
      module := some module
      flags := between.vm.flags ||| (env.module module).flags } } := by
    refine ⟨?_, stayed.activations⟩
    change ({ between.vm.setting with module := machine.vm.module, flags := machine.vm.flags } :
      Setting μ) = _
    rw [stayed.setting]
    rfl
  refine Proc.logs_mono (runs _ switched) (fun _ logged => logged) ?_ (fun _ _ => trivial)
  exact fun buffer after held => Proc.logs_pure (switched.held held)

theorem catchErrors_logs (machine : Machine μ κ) {body : Exec μ κ (Option α)}
    {post : Option α → Machine μ κ → Prop} {seen : Event μ κ → Prop}
    (logs : body.Logs Event.Uncaught seen post (fun _ => True) machine) :
    (catchErrors machine body).Logs Event.Uncaught seen post (fun _ => True) machine := by
  unfold catchErrors
  refine Proc.logs_ite (fun _ => logs) fun _ => ?_
  refine Proc.logs_catching (Proc.logs_mono logs (fun _ logged => logged)
    (fun _ _ stayed => stayed) ?_)
  intro after _
  refine ⟨trivial, fun quiet => ?_⟩
  exact (quiet .caught (List.mem_append_left _ (List.mem_singleton_self _))).elim

theorem held_resetVm {machine after : Machine μ κ} (ran : Switched machine after) :
    Held machine { after with vm := resetVm machine.vm after.vm } := by
  refine ⟨?_, ran.activations⟩
  have scopes : (resetVm machine.vm after.vm).scopes = after.vm.scopes := by
    have same := ran.scopes
    unfold Vm.scopes at same ⊢
    unfold resetVm
    cases present : machine.vm.stackSet with
    | none =>
      rw [present] at same
      exact same.symm
    | some stackSet => rfl
  refine Eq.trans ?_ ran.setting
  exact congrArg (Setting.mk _ _ _ _ _) scopes

/-- In the other module everything else is the same, and afterwards the module is. -/
theorem executeEx_logs (module : μ) (context : Value μ) (program : Int)
    (data blockParams : Option (Value μ)) {machine : Machine μ κ} {seen : Event μ κ → Prop}
    (runs : ∀ between, Switched machine between →
      (rec.executeProgramEx program context data blockParams).Logs Event.Uncaught seen
        (fun _ => Held between) (fun _ => True) between) :
    (Exec.executeEx env rec module context program data blockParams).Logs Event.Uncaught seen
      (fun _ => Held machine) (fun _ => True) machine := by
  unfold Exec.executeEx
  apply Proc.logs_bind
  apply Proc.logs_read
  apply Proc.logs_bind
  refine Proc.logs_mono (catchErrors_logs machine (executeModule_logs module context program data
    blockParams runs)) (fun _ logged => logged) ?_ (fun _ left => left)
  intro buffer after ran
  apply Proc.logs_bind
  apply Proc.logs_write
  exact Proc.logs_pure (held_resetVm ran)

theorem executeEx (calls : Rec.Kept inv rec) (module : μ) (context : Value μ) (program : Int)
    (data blockParams : Option (Value μ)) :
    Kept inv false (Exec.executeEx env rec module context program data blockParams) := by
  intro machine ready
  refine Proc.logs_mono (executeEx_logs module context program data blockParams ?_)
    (fun _ logged => logged) (fun _ _ held => held) (fun _ _ => nofun)
  intro between switched
  have holds : inv.holds between.vm.scopes between.activations := by
    rwa [switched.scopes, switched.activations]
  refine Proc.logs_mono (calls.executeProgramEx program context data blockParams between holds) ?_
    (fun _ _ held => held) (fun _ _ => trivial)
  exact fun event within => within.below (switched.scopes ▸ .refl _)
    (congrArg Setting.registered switched.setting) switched.activations

theorem execute (calls : Rec.Kept inv rec) (module : μ) (context : Value μ) :
    Kept inv false (Exec.execute env rec module context) :=
  executeEx calls module context 0 none none

theorem cacheFind (tmpl : Str) : Kept inv exact (Exec.cacheFind env tmpl) := by
  unfold Exec.cacheFind
  refine .bind (.readVm _) fun cache => ?_
  cases cache with
  | none => exact .pure none
  | some cache =>
    refine .bind (.writeVm fun _ => rfl) fun _ => ?_
    split
    · exact .pure _
    · exact .raise _

theorem cacheAdd (tmpl : Str) (module : μ) : Kept inv exact (Exec.cacheAdd env tmpl module) := by
  unfold Exec.cacheAdd
  refine .bind (.readVm _) fun cache => ?_
  cases cache with
  | none => exact .pure ()
  | some cache =>
    dsimp only
    split
    · exact .writeVm fun _ => rfl
    · exact .raise _

theorem cacheRelease (tmpl : Str) (found : Option μ) :
    Kept inv exact (Exec.cacheRelease env tmpl found) := by
  cases found with
  | none => exact .pure ()
  | some module => exact .writeVm fun _ => rfl

theorem templateModule (tmpl : Str) (found : Option μ) (indent : Option Str)
    (useDelimiters : Bool) :
    Kept inv exact (Exec.templateModule env tmpl found indent useDelimiters) := by
  unfold Exec.templateModule compileAndStore
  refine .bind (.writeVm fun _ => rfl) fun _ => ?_
  cases found with
  | some module => exact .pure _
  | none =>
    refine .bind ?_ fun module => .pure _
    refine .bind (.readVm _) fun vm => .bind (.nonnull _) fun text => ?_
    refine .bind .allocate fun addr => .bind (.nonnull _) fun module => ?_
    exact .bind (.cacheAdd text module) fun _ => .pure module

theorem executeTemplateModule (calls : Rec.Kept inv rec) (module : μ) (input : Value μ)
    (indent : Option Str) :
    Kept inv false (Exec.executeTemplateModule env rec module input indent) := by
  unfold Exec.executeTemplateModule
  refine .bind (.writeVm fun _ => rfl) fun _ => ?_
  refine .bind (.execute calls module input) fun _ => .bind (.nonnull _) fun retval => ?_
  refine .bind (.readVm _) fun flags => ?_
  cases indent with
  | none => exact .pure _
  | some indent => exact .pure _

theorem executeTemplate (calls : Rec.Kept inv rec) (tmpl : Str) (input : Value μ)
    (indent : Option Str) (useDelimiters : Bool) :
    Kept inv false (Exec.executeTemplate env rec tmpl input indent useDelimiters) := by
  unfold Exec.executeTemplate executeTemplateBody
  refine .bind (.cacheFind tmpl) fun found => .bind (.readVm _) fun prev => ?_
  refine .bind (.ite (.pure none) ?_) fun retval => ?_
  · refine .bind (.read _) fun activations => ?_
    refine .bind (.tried (.templateModule tmpl found indent useDelimiters) none) fun chosen => ?_
    cases chosen with
    | none => exact .pure none
    | some module => exact .catching (.executeTemplateModule calls module input indent) activations
  · refine .bind (.writeVm fun _ => rfl) fun _ => ?_
    exact .bind (.cacheRelease tmpl found) fun _ => .pure _

theorem partialBlockInput (argv : List (Value μ)) :
    Kept inv exact (Exec.partialBlockInput argv : Exec μ κ (Value μ)) := by
  cases argv with
  | nil => exact .topContext
  | cons first rest => exact .pure first

theorem executePartialBlock (calls : Rec.Kept inv rec) (module : μ) (program : Int)
    (argv : List (Value μ)) : Kept inv false (Exec.executePartialBlock env rec module program argv) := by
  unfold Exec.executePartialBlock
  refine .bind (.partialBlockInput argv) fun input => ?_
  refine .bind (.stackOf _) fun stack => .bind (.readVm _) fun vm => .ite ?_ ?_
  · exact .bind (calls.executeProgramEx _ _ _ _) fun _ => .pure _
  · exact .bind (.executeEx calls _ _ _ _ _) fun _ => .pure _

/-- The body runs with one more block, which is then taken away. -/
theorem withPartialBlock_logs (block : PartialBlock μ) {body : Exec μ κ α} {machine : Machine μ κ}
    {seen : Event μ κ → Prop} (shown : ∀ name count, seen (.pop name count))
    (runs : ∀ opened : Machine μ κ, opened.activations = machine.activations →
      opened.vm.setting = { machine.vm.setting with scopes := machine.vm.scopes.opened block } →
        body.Logs Event.Uncaught seen (fun _ => Held opened) (fun _ => True) opened) :
    (Exec.withPartialBlock block body).Logs Event.Uncaught seen (fun _ => Held machine)
      (fun _ => True) machine := by
  unfold Exec.withPartialBlock
  apply Proc.logs_bind
  refine push_logs _ block fun stackSet present => ?_
  apply Proc.logs_bind
  have scopes := scopes_of present
  refine Proc.logs_mono (runs _ rfl ?_) (fun _ logged => logged) ?_ (fun _ left => left)
  · rw [scopes]
    rfl
  intro result after held
  apply Proc.logs_bind
  refine pop_logs _ (fun _ => shown _ _) ?_ ?_
  · intro last present emptied
    have opened := (scopes_of present).symm.trans held.scopes
    have blocks := congrArg (fun scopes : Scopes μ => scopes.partialBlockStack.v) opened
    cases emptied.symm.trans blocks
  · intro last value rest present popped
    have opened := (scopes_of present).symm.trans held.scopes
    have blocks := congrArg (fun scopes : Scopes μ => scopes.partialBlockStack.v) opened
    cases popped.symm.trans blocks
    refine Proc.logs_pure ⟨?_, held.activations⟩
    change Setting.mk after.vm.setting.data after.vm.setting.inIteration after.vm.setting.module
      after.vm.setting.flags after.vm.setting.registered (Stacks.scopes _) = _
    rw [held.setting]
    exact congrArg (Setting.mk _ _ _ _ _) ((Scopes.closed opened).trans scopes.symm)

theorem withPartialBlock (block : PartialBlock μ) {body : Exec μ κ α} (kept : Kept inv false body)
    {machine : Machine μ κ}
    (fits : inv.holds (machine.vm.scopes.opened block) machine.activations) :
    (Exec.kept inv false).Keeps (Exec.withPartialBlock block body) machine := by
  intro _
  refine Proc.logs_mono (withPartialBlock_logs block (fun _ _ => trivial) ?_)
    (fun _ logged => logged) (fun _ _ held => held) (fun _ _ => nofun)
  intro opened activations setting
  have scopes : opened.vm.scopes = machine.vm.scopes.opened block :=
    congrArg Setting.scopes setting
  have holds : inv.holds opened.vm.scopes opened.activations := by
    rwa [scopes, activations]
  refine Proc.logs_mono (kept opened holds) ?_ (fun _ _ held => held) (fun _ _ => trivial)
  exact fun event within => within.below (scopes ▸ Scopes.below_opened block _)
    (congrArg Setting.registered setting) activations

theorem withOuterBlock (depth : Nat) {body : Exec μ κ α} (kept : Kept inv false body) :
    Kept inv false (do
      let stack ← Exec.stackOf StackField.partialBlockStack
      let outer ← Exec.nonnull (stack.getOffset depth)
      Exec.withPartialBlock outer body) := by
  intro machine ready
  apply Proc.logs_bind
  refine Proc.logs_mono (stackOf_logs _ fun stackSet present => ?_) (fun _ logged => logged)
    (fun _ _ holds => holds) (fun _ _ => nofun)
  apply Proc.logs_bind
  refine Proc.logs_mono (logs_nonnull fun outer found => ?_) (fun _ logged => logged)
    (fun _ _ holds => holds) (fun _ _ => nofun)
  have around : machine.vm.scopes.partialBlockStack.getOffset depth = some outer := by
    rw [scopes_of present]
    exact found
  exact withPartialBlock outer kept (inv.reopens outer around ready) ready

theorem closureCall (calls : Rec.Kept inv rec) (fn : ClosureFunc) (localv argv : List (Value μ))
    (options : Options μ) : Kept inv false (Exec.closureCall env rec fn localv argv options) := by
  unfold Exec.closureCall
  split
  · unfold invokePartialBlockClosure
    refine .bind (.emit fun _ => trivial) fun _ => .ite ?_ (.executePartialBlock calls _ _ _)
    exact .withOuterBlock _ (.executePartialBlock calls _ _ _)
  · unfold invokePartialStringClosure
    refine .bind (.nonnull _) fun input => ?_
    exact .bind (.executeTemplate calls _ _ _ _) fun _ => .pure _
  · unfold invokePartialStringClosure
    refine .bind (.nonnull _) fun input => ?_
    exact .bind (.executeTemplate calls _ _ _ _) fun _ => .pure _
  · unfold invokeMustacheStyleLambdaClosure
    refine .bind (calls.valueCall _ _ _) fun result => .ite (.pure _) ?_
    exact .bind (.executeTemplate calls _ _ _ _) fun _ => .pure _
  · exact .abort

end Execute

section Helpers

theorem childValue (stale : Value μ) (child : Child μ) :
    Kept inv exact (Exec.childValue stale child : Exec μ κ (Value μ)) := by
  cases child with
  | value value => exact .pure value
  | json json => exact .valueOfJson stale json

/-- Only a map with entries is marked while it is iterated. -/
theorem iteration_cases (value : Value μ) :
    ((beginIteration value : Exec μ κ Unit) = Pure.pure () ∨
      (beginIteration value : Exec μ κ Unit) = Proc.abort) ∧
      (endIteration value : Exec μ κ Unit) = Pure.pure () ∨
    ∃ addr entry entries, value = .map addr (entry :: entries) := by
  cases value with
  | map addr entries =>
    cases entries with
    | nil => exact .inl ⟨.inl rfl, rfl⟩
    | cons entry entries => exact .inr ⟨addr, entry, entries, rfl⟩
  | user addr json =>
    cases json with
    | object entries => cases entries <;> simp [beginIteration, endIteration]
    | _ => exact .inl ⟨.inl rfl, rfl⟩
  | _ => exact .inl ⟨.inl rfl, rfl⟩

/-- The body of an iteration runs with a mark on the map, or without one. -/
theorem iteration_logs (value : Value μ) {machine : Machine μ κ} {body : Exec μ κ α}
    {seen : Event μ κ → Prop} {post : Machine μ κ → Prop}
    (plain : body.Logs Event.Uncaught seen (fun _ => post) (fun _ => True) machine)
    (marked : ∀ addr, body.Logs Event.Uncaught seen
      (fun _ after => post (Machine.unmarked after addr)) (fun _ => True)
      (Machine.marked machine addr))
    (finish : α → β) :
    (beginIteration value >>= fun _ => body >>= fun result =>
      endIteration value >>= fun _ => Pure.pure (finish result) : Exec μ κ β).Logs
      Event.Uncaught seen (fun _ => post) (fun _ => True) machine := by
  rcases iteration_cases (κ := κ) value with
    ⟨starts | starts, ends⟩ | ⟨addr, entry, entries, rfl⟩
  · rw [starts, ends]
    apply Proc.logs_bind
    apply Proc.logs_pure
    apply Proc.logs_bind
    refine Proc.logs_mono plain (fun _ logged => logged) ?_ (fun _ left => left)
    exact fun result after ended => Proc.logs_bind (Proc.logs_pure (Proc.logs_pure ended))
  · rw [starts]
    apply Proc.logs_bind
    exact Proc.logs_abort trivial
  · apply Proc.logs_bind
    apply Proc.logs_bind
    apply Proc.logs_read
    apply Proc.logs_ite
    · exact fun _ => Proc.logs_abort trivial
    · intro _
      apply Proc.logs_write
      apply Proc.logs_bind
      refine Proc.logs_mono (marked addr) (fun _ logged => logged) ?_ (fun _ left => left)
      intro result after ended
      apply Proc.logs_bind
      apply Proc.logs_write
      exact Proc.logs_pure ended

/-- What leaves everything as it was leaves the mark, and then it is taken away. -/
theorem held_unmarked {machine after : Machine μ κ} {addr : Nat}
    (held : Held (Machine.marked machine addr) after) :
    Held machine (Machine.unmarked after addr) := by
  refine ⟨?_, held.activations⟩
  have marks : after.vm.inIteration = addr :: machine.vm.inIteration :=
    congrArg Setting.inIteration held.setting
  change Setting.mk after.vm.setting.data (after.vm.inIteration.erase addr) after.vm.setting.module
    after.vm.setting.flags after.vm.setting.registered after.vm.setting.scopes = _
  rw [held.setting, marks, List.erase_cons_head]
  rfl

/-- An iteration ends with the marks on the maps as they were when it began. -/
theorem iteration (value : Value μ) {body : Exec μ κ α} (kept : Kept inv false body)
    (finish : α → β) :
    Kept inv false (beginIteration value >>= fun _ => body >>= fun result =>
      endIteration value >>= fun _ => Pure.pure (finish result) : Exec μ κ β) := by
  intro machine ready
  have plain := Proc.logs_mono (kept machine ready) (fun _ logged => logged)
    (fun _ _ held => held) (fun _ _ => trivial)
  refine Proc.logs_mono (iteration_logs value plain (fun addr => ?_) finish)
    (fun _ logged => logged) (fun _ _ held => held) (fun _ _ => nofun)
  refine Proc.logs_mono (kept (Machine.marked machine addr) ready) ?_ ?_ (fun _ _ => trivial)
  · exact fun event within => within.below (.refl _) rfl rfl
  · exact fun _ _ held => held_unmarked held

theorem copyLoop (platform : Platform) (stale : Value μ) (left : List (Option Str × Child μ))
    (into : List (Str × Value μ)) :
    Kept inv exact (copyEntries.copyLoop platform stale left into : Exec μ κ _) := by
  induction left generalizing stale into with
  | nil => exact .pure into
  | cons entry rest ih =>
    unfold copyEntries.copyLoop
    exact .bind (.childValue stale entry.2) fun value => ih value _

theorem copyEntries (platform : Platform) (value : Value μ) (into : List (Str × Value μ)) :
    Kept inv false (Exec.copyEntries platform value into : Exec μ κ _) :=
  .iteration value (.copyLoop platform .null (children value) into) id

theorem resolveArgument (calls : Rec.Kept inv rec) (value : Value μ) (options : Options μ) :
    Kept inv false (Exec.resolveArgument rec value options) :=
  .ite (calls.valueCall _ _ _) (.pure value)

theorem eachLoop (calls : Rec.Kept inv rec) (options : Options μ) (len i : Nat)
    (dataMap : Option (List (Str × Value μ))) (stale : Value μ)
    (left : List (Option Str × Child μ)) (result : Str) :
    Kept inv false (Exec.eachLoop env rec options len i dataMap stale left result) := by
  induction left generalizing i dataMap stale result with
  | nil => exact .pure result
  | cons entry rest ih =>
    unfold Exec.eachLoop
    refine .bind (.childValue stale entry.2) fun value => ?_
    refine .bind .allocate fun addr => .bind .allocate fun blockParamsAddr => ?_
    exact .bind (calls.executeProgramEx _ _ _ _) fun text => ih _ _ _ _

theorem eachDataMap (options : Options μ) : Kept inv false (Exec.eachDataMap env options) := by
  unfold Exec.eachDataMap
  cases options.data with
  | none => exact .pure none
  | some data => exact .ite (.bind (.copyEntries _ data []) fun _ => .pure _) (.pure _)

theorem builtinEach (calls : Rec.Kept inv rec) (argv : List (Value μ)) (options : Options μ) :
    Kept inv false (Exec.builtinEach env rec argv options) := by
  unfold Exec.builtinEach
  cases argv with
  | nil => exact .raiseError _
  | cons argument rest =>
    refine .bind (.resolveArgument calls argument options) fun context => .ite ?_ ?_
    · refine .bind (.eachDataMap options) fun dataMap => .ite ?_ ?_
      · exact .bind (.executeProgram calls _ _) fun _ => .pure _
      · exact .iteration context (.eachLoop calls _ _ _ _ _ _ _)
          fun text : Str => (.string text false : Value μ)
    · exact .bind (.executeProgram calls _ _) fun _ => .pure _

theorem lookupHelper (name : Str) : Kept inv exact (Exec.lookupHelper env name) := by
  unfold Exec.lookupHelper
  refine .bind (.readVm _) fun helpers => .bind (.mapFind _ helpers name) fun found => ?_
  cases found with
  | none => exact .pure _
  | some helper => exact .pure _

theorem callHelperStr (calls : Rec.Kept inv rec) (name : Str) (argv : List (Value μ))
    (options : Options μ) : Kept inv false (Exec.callHelperStr env rec name argv options) := by
  unfold Exec.callHelperStr
  refine .bind (.lookupHelper name) fun found => ?_
  cases found with
  | none => exact .pure none
  | some helper => exact .bind (calls.valueCall _ _ _) fun _ => .pure _

theorem builtinBlockHelperMissing (calls : Rec.Kept inv rec) (argv : List (Value μ))
    (options : Options μ) :
    Kept inv false (Exec.builtinBlockHelperMissing env rec argv options) := by
  have text := fun program context =>
    bind (executeProgram calls program context) fun text => pure (.string text false : Value μ)
  unfold Exec.builtinBlockHelperMissing
  cases argv with
  | nil => exact text _ _
  | cons context rest =>
    refine .ite (text _ _) (.ite (text _ _) (.ite ?_ (text _ _)))
    exact .bind (.callHelperStr calls _ _ options) fun _ => .nonnull _

theorem runHelper (calls : Rec.Kept inv rec) (options : Options μ) (code : HelperCode μ) :
    Kept inv false (Exec.runHelper rec options code) := by
  induction code with
  | ret value => exact .pure value
  | throw error => exact .raise error
  | executeProgram program context data blockParams next ih =>
    exact .bind (calls.executeProgramEx _ _ _ _) ih
  | call value argv next ih => exact .bind (calls.valueCall _ _ _) ih

theorem builtinIf (calls : Rec.Kept inv rec) (argv : List (Value μ)) (options : Options μ) :
    Kept inv false (Exec.builtinIf env rec argv options) := by
  unfold Exec.builtinIf
  split
  · refine .bind (.resolveArgument calls _ options) fun conditional => .bind ?_ fun chosen => ?_
    · unfold isTrue
      refine .ite (.pure _) (.ite ?_ (.pure _))
      exact .bind (.nonnull _) fun hash => .bind (.mapFind _ hash _) fun _ => .pure _
    · exact .bind (.executeProgram calls _ _) fun _ => .pure _
  · exact .raiseError _

theorem callBuiltin (calls : Rec.Kept inv rec) (builtin : Builtin) (argv : List (Value μ))
    (options : Options μ) : Kept inv false (Exec.callBuiltin env rec builtin argv options) := by
  cases builtin with
  | blockHelperMissing => exact .builtinBlockHelperMissing calls argv options
  | helperMissing => exact .ite (.bind (.nonnull _) fun _ => .raiseError _) (.pure _)
  | each => exact .builtinEach calls argv options
  | ifHelper => exact .builtinIf calls argv options
  | «unless» =>
    change Kept inv false (builtinUnless env rec argv options)
    unfold builtinUnless
    split
    · exact .bind (.callHelperStr calls _ _ options) fun _ => .nonnull _
    · exact .raiseError _
  | «with» =>
    change Kept inv false (builtinWith rec argv options)
    unfold builtinWith
    split
    · refine .bind (.resolveArgument calls _ options) fun context => .ite ?_ ?_
      · exact .bind (.executeProgram calls _ _) fun _ => .pure _
      · exact .bind .allocate fun _ => .bind (calls.executeProgramEx _ _ _ _) fun _ => .pure _
    · exact .raiseError _
  | log =>
    change Kept inv false (builtinLog env rec argv options)
    unfold builtinLog
    refine .bind (.readVm _) fun logFunc => ?_
    cases logFunc with
    | some id => exact .runHelper calls options _
    | none => exact .bind (.readVm _) fun _ => .ite (.pure _) .abort
  | lookup =>
    change Kept inv false (builtinLookup env argv)
    unfold builtinLookup
    split
    · refine .ite (.bind (.mapFind _ _ _) fun _ => .pure _) (.ite ?_ (.pure _))
      exact .bind (.arrayFind _ _) fun _ => .nonnull _
    · exact .raiseError _
  | setDelimiters =>
    change Kept inv false (builtinSetDelimiters argv)
    unfold builtinSetDelimiters
    split
    · exact .bind (.writeVm fun _ => rfl) fun _ => .pure _
    · exact .pure _

theorem valueCall (calls : Rec.Kept inv rec) (value : Value μ) (argv : List (Value μ))
    (options : Options μ) : Kept inv false (Exec.valueCall env rec value argv options) := by
  unfold Exec.valueCall
  split
  · exact .callBuiltin calls _ argv options
  · exact .runHelper calls options _
  · exact .closureCall calls _ _ argv options
  · exact .raiseError _

end Helpers

end Kept

end Exec

end HandlebarsC
