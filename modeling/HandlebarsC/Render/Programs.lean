import HandlebarsC.Render.Opcodes
import Mathlib.Data.List.Forall2

/-!
Running a program: it is entered in a scope of its own, performed, and left with the scope around
it as it was.
-/

namespace HandlebarsC

open Effect Exec

namespace Render

variable {μ κ : Type} {stage : Stage μ κ} {view : View μ} {machine : Machine μ κ}
  {names : List BlockParamPair} {fuel : Nat}

section Leaving

/-- What is above a height is taken off, as long as it is not protected. -/
theorem truncateLoop_drop {protect count : Nat} {v : List α} (safe : protect ≤ count) :
    Stack.truncateLoop count protect v = .ok (v.drop (v.length - count)) := by
  induction v with
  | nil => rw [List.drop_nil, Stack.truncateLoop]
  | cons value rest ih =>
    rw [Stack.truncateLoop]
    by_cases fits : (value :: rest).length ≤ count
    · rw [if_pos fits, Nat.sub_eq_zero_of_le fits, List.drop_zero]
    · have more : (value :: rest).length - count = rest.length - count + 1 := by
        rw [List.length_cons] at fits ⊢
        omega
      rw [if_neg fits, if_neg (by omega), ih, more, List.drop_succ_cons]

/-- One stack is put back to a height. -/
theorem restore_does (field : StackField μ α) (next : View μ) {protect count : Nat}
    (stands : Stands stage view machine) (safe : protect ≤ count)
    (stacked : ∀ stackSet, Stacked view stackSet → Stacked next (field.set stackSet
      ⟨(field.get stackSet).v.drop ((field.get stackSet).v.length - count), protect⟩))
    (data : next.scope.data = view.scope.data := by rfl)
    (iterating : next.scope.iterating = view.scope.iterating := by rfl)
    (text : next.text = view.text := by rfl) :
    Does (restore field protect count) (.ok ()) (fun _ _ after => Stands stage next after)
      machine := by
  obtain ⟨stackSet, present, before⟩ := stands.stackSet
  unfold restore
  refine Proc.does_ran (stackOf_ran field present) ?_
  rw [truncateLoop_drop safe]
  refine Proc.does_end (setStack_ran field present _) ?_
  exact stands.withStacks (stacked stackSet before) data iterating text

/-- What is left of a list that is cut to the height of its lower part. -/
theorem drop_height {lower upper : List α} (below : lower <:+ upper) :
    upper.drop (upper.length - lower.length) = lower := by
  obtain ⟨more, rfl⟩ := below
  rw [List.length_append, Nat.add_sub_cancel, List.drop_left]

/-- The stacks are put back to the heights they were saved with. -/
theorem restoreStacks_does {scope around : Scope μ} {text outer : Str} {saved : Stacks μ}
    (stacked : Stacked ⟨[], [], around, outer⟩ saved)
    (contexts : around.contexts <:+ scope.contexts)
    (blockParams : around.blockParams <:+ scope.blockParams)
    (stands : Stands stage ⟨[], [], scope, text⟩ machine) :
    Does (restoreStacks saved) (.ok ()) (fun _ _ after => Stands stage ⟨[], [],
      { scope with contexts := around.contexts, blockParams := around.blockParams }, text⟩
      after) machine := by
  have noOperands : saved.stack = ⟨[], 0⟩ := stacked.operands
  have noHashes : saved.hashStack = ⟨[], 0⟩ := stacked.hashes
  have depth : saved.contextStack.count = around.contexts.length :=
    congrArg List.length stacked.contexts
  have paramDepth : saved.blockParamStack.count = around.blockParams.length :=
    stacked.blockParams.length_eq
  unfold restoreStacks
  rw [noOperands, noHashes, stacked.partialBlocks, depth, paramDepth]
  refine Proc.does_step (restore_does StackField.stack ⟨[], [], scope, text⟩ stands
    (Nat.zero_le _) fun stackSet inner => { inner with operands := ?_ }) ?_
  · change Stack.mk (stackSet.stack.v.drop _) _ = _
    rw [inner.operands]
    exact congrArg (Stack.mk · 0) List.drop_nil
  intro _ first stands
  refine Proc.does_step (restore_does StackField.hashStack ⟨[], [], scope, text⟩ stands
    (Nat.zero_le _) fun stackSet inner => { inner with hashes := ?_ }) ?_
  · change Stack.mk (stackSet.hashStack.v.drop _) _ = _
    rw [inner.hashes]
    exact congrArg (Stack.mk · 0) List.drop_nil
  intro _ second stands
  refine Proc.does_step (restore_does StackField.contextStack
    ⟨[], [], { scope with contexts := around.contexts }, text⟩ stands
    stacked.contextProtect fun stackSet inner =>
      { inner with contexts := ?_, contextProtect := stacked.contextProtect }) ?_
  · change stackSet.contextStack.v.drop (stackSet.contextStack.v.length - _) = _
    rw [inner.contexts]
    exact drop_height contexts
  intro _ third stands
  refine Proc.does_step (restore_does StackField.blockParamStack ⟨[], [],
    { scope with contexts := around.contexts, blockParams := around.blockParams }, text⟩
    stands stacked.blockParamProtect fun stackSet inner =>
      { inner with blockParams := ?_, blockParamProtect := stacked.blockParamProtect }) ?_
  · change List.Forall₂ _
      (stackSet.blockParamStack.v.drop (stackSet.blockParamStack.v.length - _)) _
    have below := List.forall₂_drop (scope.blockParams.length - around.blockParams.length)
      inner.blockParams
    rw [drop_height blockParams] at below
    rw [inner.blockParams.length_eq]
    exact below
  intro _ fourth stands
  refine restore_does StackField.partialBlockStack _ stands (Nat.zero_le _) fun stackSet inner =>
    { inner with partialBlocks := ?_ }
  change Stack.mk (stackSet.partialBlockStack.v.drop _) _ = _
  rw [inner.partialBlocks]
  exact congrArg (Stack.mk · 0) List.drop_nil

end Leaving

section Entering

variable {scope : Scope μ} {text : Str}

/-- The context of a program, which is not pushed on top of itself -/
theorem enterContext_does (stands : Stands stage ⟨[], [], scope, text⟩ machine) (context : Value μ)
    (room : scope.contexts.length < Stack.capacity) :
    Does (Exec.pushContext stage.env context) (.ok ()) (fun _ _ after => Stands stage ⟨[], [],
      { scope with contexts := Scopes.withContext stage.mode.platform context scope.contexts },
      text⟩ after) machine := by
  obtain ⟨stackSet, present, stacked⟩ := stands.stackSet
  have contexts : stackSet.contextStack.v = scope.contexts := stacked.contexts
  have pushes : ∀ deeper, deeper = context :: scope.contexts →
      Does (push StackField.contextStack context) (.ok ()) (fun _ _ after => Stands stage ⟨[], [],
        { scope with contexts := deeper }, text⟩ after) machine := by
    rintro _ rfl
    refine Proc.does_end (push_ran StackField.contextStack present context ?_) ?_
    · change stackSet.contextStack.v.length < _
      rwa [contexts]
    · exact stands.withStacks { stacked with
        contexts := congrArg (context :: ·) contexts
        contextProtect := Nat.le_succ_of_le stacked.contextProtect }
  unfold Exec.pushContext
  refine Proc.does_ran (stackOf_ran _ present) ?_
  rw [stage.platform, Stack.top,
    show (StackField.contextStack.get stackSet).v = scope.contexts from contexts]
  unfold Scopes.withContext
  cases top : scope.contexts with
  | nil =>
    refine pushes [context] ?_
    rw [top]
  | cons first rest =>
    dsimp only [List.head?_cons]
    split
    · rw [← top]
      exact stands
    · refine pushes _ ?_
      rw [top]

theorem setData_does {data : Option (Value μ)} {entries : Option (StrMap (Value μ))}
    (given : DataGiven stage.owned data entries) (stands : Stands stage ⟨[], [], scope, text⟩ machine) :
    Does (setData data) (.ok ()) (fun _ _ after => Stands stage ⟨[], [],
      { scope with data := entries.getD scope.data }, text⟩ after) machine := by
  obtain ⟨stackSet, present, stacked⟩ := stands.stackSet
  cases given with
  | none => exact stands
  | some same inert =>
    exact ⟨stands.module, stands.flags, stands.jmp, stands.helpers, stands.logFunc,
      stands.lastHelper, stands.buffer, same, stands.iterating, stands.lastContext, stands.alloc,
      stackSet, present, { stacked with }⟩

theorem pushBlockParams_does {blockParams : Option (Value μ)} {items : Option (List (Value μ))}
    (given : ParamsGiven stage.owned blockParams items)
    (stands : Stands stage ⟨[], [], scope, text⟩ machine)
    (room : scope.blockParams.length < Stack.capacity) :
    Does (pushBlockParams blockParams) (.ok ()) (fun _ _ after => Stands stage ⟨[], [],
      { scope with blockParams := items.toList ++ scope.blockParams }, text⟩ after) machine := by
  obtain ⟨stackSet, present, stacked⟩ := stands.stackSet
  cases given with
  | none => exact stands
  | some inert =>
    rename_i items addr
    refine Proc.does_end (push_ran StackField.blockParamStack present (.array addr items) ?_) ?_
    · change stackSet.blockParamStack.v.length < _
      rwa [stacked.blockParams.length_eq]
    · exact stands.withStacks { stacked with
        blockParams := .cons ⟨addr, rfl⟩ stacked.blockParams
        blockParamProtect := Nat.le_succ_of_le stacked.blockParamProtect }

end Entering

section Running

variable {scope : Scope μ} {text : Str}

/-- The VM between programs, whatever its buffer is -/
def Rests (stage : Stage μ κ) (scope : Scope μ) (machine : Machine μ κ) : Prop :=
  Stands stage ⟨[], [], scope, []⟩
    { machine with vm := { machine.vm with buffer := some ⟨0, []⟩ } }

theorem Stands.rests (stands : Stands stage ⟨[], [], scope, text⟩ machine) :
    Rests stage scope machine :=
  stands.withText 0 []

theorem Rests.stands {buffer : Buffer} (rests : Rests stage scope machine)
    (same : machine.vm.buffer = some buffer) :
    Stands stage ⟨[], [], scope, buffer.val⟩ machine := by
  have back : { machine with vm := { machine.vm with buffer := some buffer } } = machine := by
    rw [← same]
  have stands := Stands.withText rests buffer.addr buffer.val
  rw [back] at stands
  exact stands

theorem newBuffer_does (rests : Rests stage scope machine) :
    Does newBuffer (.ok ()) (fun _ _ after => Stands stage ⟨[], [], scope, []⟩ after) machine := by
  have more := @Stands.withAlloc _ _ _ _ _ rests (machine.vm.freshAddr + 1)
    ((Nat.le_max_left _ _).trans (Nat.le_succ _))
  exact more.withText machine.vm.freshAddr []

/-- What is on the stacks is protected. -/
theorem enter_does (activation : Activation μ) (stands : Stands stage ⟨[], [], scope, text⟩ machine) :
    Does (enter activation) (.ok ()) (fun _ _ after => Stands stage ⟨[], [], scope, text⟩ after)
      machine := by
  obtain ⟨stackSet, present, stacked⟩ := stands.stackSet
  have saved : Stacked ⟨[], [], scope, text⟩ (saveStacks stackSet) := by
    refine ⟨?_, ?_, stacked.contexts, ?_, stacked.blockParams, ?_, ?_⟩
    · change stackSet.stack.save = _
      rw [stacked.operands]
      rfl
    · change stackSet.hashStack.save = _
      rw [stacked.hashes]
      rfl
    · exact le_of_eq (congrArg List.length stacked.contexts)
    · exact le_of_eq stacked.blockParams.length_eq
    · change stackSet.partialBlockStack.save = _
      rw [stacked.partialBlocks]
      rfl
  have inside := stands.withStacks saved
  rw [← Option.map_some (f := saveStacks), ← present] at inside
  exact { inside with }

/-- The scope of a block is above the one around it. -/
theorem Scope.enter_suffix (platform : Platform) (scope : Scope μ) (context : Value μ)
    (entries : Option (StrMap (Value μ))) (items : Option (List (Value μ))) :
    scope.contexts <:+ (scope.enter platform context entries items).contexts ∧
      scope.blockParams <:+ (scope.enter platform context entries items).blockParams :=
  ⟨Scopes.suffix_withContext platform context scope.contexts, List.suffix_append _ _⟩

/-- The result of a program is its text, and all is as it was. -/
theorem leave_does {before : Machine μ κ} {stackSet : Stacks μ} {data : Option (Value μ)}
    {entries : Option (StrMap (Value μ))} (context : Value μ) (items : Option (List (Value μ)))
    (outside : Rests stage scope before) (stacked : Stacked ⟨[], [], scope, []⟩ stackSet)
    (given : DataGiven stage.owned data entries)
    (stands : Stands stage ⟨[], [], scope.enter stage.mode.platform context entries items, text⟩
      machine) :
    Does (leave before.vm stackSet data) (.ok ()) (fun _ returned after => returned = text ∧
      after.vm.buffer = before.vm.buffer ∧ Rests stage scope after) machine := by
  obtain ⟨contexts, blockParams⟩ := Scope.enter_suffix stage.mode.platform scope context
    entries items
  unfold leave
  refine Proc.does_step (restoreStacks_does stacked contexts blockParams stands) ?_
  intro _ first stands
  obtain ⟨addr, buffer⟩ := stands.buffer
  obtain ⟨inner, present, innerStacked⟩ := stands.stackSet
  have cleared : ∀ clear : ContextCell μ → ContextCell μ,
      (first.vm.lastContext.map clear).isSome := by
    intro clear
    rw [Option.isSome_map]
    exact stands.lastContext
  refine Proc.does_ran rfl ?_
  have innerData := stands.data
  cases given with
  | none =>
    refine Proc.does_ran rfl (Proc.does_ran rfl (Proc.does_ran (readVm_ran _ _) ?_))
    rw [show Vm.buffer _ = some ⟨addr, text⟩ from buffer]
    refine Proc.does_ran rfl (Proc.does_ran rfl ⟨rfl, rfl, ?_⟩)
    exact ⟨stands.module, stands.flags, stands.jmp, stands.helpers, stands.logFunc,
      stands.lastHelper, ⟨0, rfl⟩, innerData, stands.iterating, cleared _, stands.alloc, inner,
      present, { innerStacked with }⟩
  | some same inert =>
    refine Proc.does_ran rfl (Proc.does_ran rfl (Proc.does_ran (readVm_ran _ _) ?_))
    rw [show Vm.buffer _ = some ⟨addr, text⟩ from buffer]
    refine Proc.does_ran rfl (Proc.does_ran rfl ⟨rfl, rfl, ?_⟩)
    exact ⟨stands.module, stands.flags, stands.jmp, stands.helpers, stands.logFunc,
      stands.lastHelper, ⟨0, rfl⟩, outside.data, stands.iterating, cleared _, stands.alloc,
      inner, present, { innerStacked with }⟩

theorem Scope.Inert.enter {owned : Nat → Prop} {scope : Scope μ} {context : Value μ}
    {data blockParams : Option (Value μ)} {entries : Option (StrMap (Value μ))}
    {items : Option (List (Value μ))} (platform : Platform) (inert : scope.Inert owned)
    (inside : context.Inert owned) (given : DataGiven owned data entries)
    (params : ParamsGiven owned blockParams items) :
    (scope.enter platform context entries items).Inert owned := by
  refine ⟨inert.toAll.enter platform inside ?_ ?_, inert.iterating⟩
  · cases given with
    | none => simp
    | some same inert => simpa using inert
  · cases params with
    | none => simp
    | some inert => simpa using inert

theorem Scope.Within.enter {scope : Scope μ} {context : Value μ} (platform : Platform)
    (within : scope.Within names) (pair : BlockParamPair) (entries : Option (StrMap (Value μ)))
    (items : Option (List (Value μ))) :
    (scope.enter platform context entries items).Fits (pair :: names) := by
  have contexts : (Scopes.withContext platform context scope.contexts).length ≤
      scope.contexts.length + 1 ∧ Scopes.withContext platform context scope.contexts ≠ [] := by
    unfold Scopes.withContext
    split
    · split
      · rename_i first there _
        refine ⟨Nat.le_succ _, ?_⟩
        intro empty
        rw [empty] at there
        cases there
      · exact ⟨le_rfl, by simp⟩
    · exact ⟨by simp, by simp⟩
  refine ⟨⟨contexts.1.trans (Nat.succ_le_succ within.contexts), ?_⟩, contexts.2⟩
  change (items.toList ++ scope.blockParams).length ≤ _
  rw [List.length_append, List.length_cons]
  have most : items.toList.length ≤ 1 := by cases items <;> simp
  have := within.blockParams
  omega

/-- A program in the table of a module does what its code does. -/
theorem program_does (names : List BlockParamPair) {number : Nat} {code rest : List Opcode}
    {body : Body μ} {entry : TableEntry}
    {context : Value μ} {data blockParams : Option (Value μ)}
    {entries : Option (StrMap (Value μ))} {items : Option (List (Value μ))}
    (pair : BlockParamPair) (counted : number < (stage.env.module stage.module).programCount)
    (found : (stage.env.module stage.module).programs[number]? = some entry)
    (placed : codeFrom (stage.env.module stage.module) entry.opcodeOffset =
      code ++ opcodeCtor .ret :: rest) (running : ∀ opcode ∈ code, opcode.type ≠ .ret)
    (room : names.length < Stack.capacity)
    (performs : ∀ scope : Scope μ, scope.Inert stage.owned → scope.Fits (pair :: names) →
      Performs stage fuel code ⟨[], [], scope, []⟩ (body scope)
        (fun text next => next = ⟨[], [], scope, text⟩))
    (rests : Rests stage scope machine) (inert : scope.Inert stage.owned)
    (within : scope.Within names) (inside : context.Inert stage.owned)
    (given : DataGiven stage.owned data entries)
    (params : ParamsGiven stage.owned blockParams items) :
    Does (executeProgramEx stage.env (level stage.env fuel) number context data blockParams)
      (body (scope.enter stage.mode.platform context entries items))
      (fun text returned after => returned = text ∧ after.vm.buffer = machine.vm.buffer ∧
        Rests stage scope after) machine := by
  obtain ⟨stackSet, present, stacked⟩ := rests.stackSet
  unfold executeProgramEx
  rw [if_neg (by omega)]
  refine Proc.does_ran (readVm_ran _ _) ?_
  rw [show (id machine.vm).module = some stage.module from rests.module, nonnull_some, pure_bind,
    if_neg (by omega), Int.toNat_natCast, found, nonnull_some, pure_bind]
  refine Proc.does_step (newBuffer_does rests) ?_
  intro _ first begun
  rw [show (id machine.vm).stackSet = some stackSet from present, nonnull_some, pure_bind]
  refine Proc.does_step (enter_does _ begun) ?_
  intro _ second begun
  unfold executeBody
  rw [bind_assoc]
  refine Proc.does_step (enterContext_does begun context (within.contexts.trans_lt room)) ?_
  intro _ third begun
  rw [bind_assoc]
  refine Proc.does_step (setData_does given begun) ?_
  intro _ fourth begun
  rw [bind_assoc]
  refine Proc.does_step (pushBlockParams_does params begun (within.blockParams.trans_lt room)) ?_
  intro _ fifth begun
  rw [placed, accept_perform _ _ _ running]
  have ran := performs _ (inert.enter stage.mode.platform inside given params)
    (within.enter stage.mode.platform pair entries items) 0 fifth begun
  rw [← bind_pure (body _)]
  refine Proc.does_bind ran ?_
  rintro text' returned sixth - ⟨_, rfl, done⟩
  exact Proc.does_for text' (leave_does context items rests stacked given done)

theorem carries_program {number : Nat} {code rest : List Opcode} {body : Body μ}
    {entry : TableEntry} (pair : BlockParamPair)
    (counted : number < (stage.env.module stage.module).programCount)
    (found : (stage.env.module stage.module).programs[number]? = some entry)
    (placed : codeFrom (stage.env.module stage.module) entry.opcodeOffset =
      code ++ opcodeCtor .ret :: rest) (running : ∀ opcode ∈ code, opcode.type ≠ .ret)
    (room : names.length < Stack.capacity)
    (performs : ∀ scope : Scope μ, scope.Inert stage.owned → scope.Fits (pair :: names) →
      Performs stage fuel code ⟨[], [], scope, []⟩ (body scope)
        (fun text next => next = ⟨[], [], scope, text⟩)) :
    Carries stage names [] [] (level stage.env (fuel + 1)) number body := by
  intro scope text machine context data entries blockParams items stands inert within inside given
    params
  have ran := program_does names pair counted found placed running room performs stands.rests inert within
    inside given params
  refine Proc.does_mono ran ?_
  rintro _ _ after ⟨rfl, same, rests⟩
  obtain ⟨addr, buffer⟩ := stands.buffer
  exact ⟨rfl, rests.stands (same.trans buffer)⟩

end Running

end Render

end HandlebarsC
