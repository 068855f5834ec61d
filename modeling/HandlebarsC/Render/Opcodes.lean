import HandlebarsC.Render.Builtins

/-!
What each opcode does to the view of the VM, and how pieces of code compose.
-/

namespace HandlebarsC

open Effect Exec

namespace Render

variable {μ κ : Type} {stage : Stage μ κ} {view : View μ} {machine : Machine μ κ}
  {operands : List (Value μ)} {opcode : Opcode} {fuel : Nat}

section Code

/-- The opcodes of a piece of a program. -/
def perform (env : Env μ κ) (rec : Rec μ κ) : Nat → List Opcode → Exec μ κ Unit
  | _, [] => pure ()
  | pc, opcode :: rest => do
    let machine ← Proc.read id
    Proc.emit (.opcode machine.vm machine.activations pc opcode)
    acceptOpcode env rec opcode
    perform env rec (pc + 1) rest

/-- A program is performed up to its `return`. -/
theorem accept_perform (env : Env μ κ) (rec : Rec μ κ) (pc : Nat) {code : List Opcode}
    (running : ∀ opcode ∈ code, opcode.type ≠ .ret) (rest : List Opcode) :
    accept env rec pc (code ++ opcodeCtor .ret :: rest) = perform env rec pc code := by
  induction code generalizing pc with
  | nil => rfl
  | cons opcode code ih =>
    obtain ⟨here, later⟩ := List.forall_mem_cons.mp running
    rw [List.cons_append, accept, if_neg here, ih (pc + 1) later]
    rfl

theorem perform_append (env : Env μ κ) (rec : Rec μ κ) (pc : Nat) (front code : List Opcode) :
    perform env rec pc (front ++ code) =
      perform env rec pc front >>= fun _ => perform env rec (pc + front.length) code := by
  induction front generalizing pc with
  | nil => exact (pure_bind _ _).symm
  | cons opcode front ih =>
    rw [List.cons_append, perform, perform, ih (pc + 1), List.length_cons]
    simp only [bind_assoc, Nat.add_assoc, Nat.add_comm 1]

/-- The code does what a meaning says, when calls may be nested so deep. -/
def Performs (stage : Stage μ κ) (fuel : Nat) (code : List Opcode) (view : View μ)
    (result : Meaning α) (post : α → View μ → Prop) : Prop :=
  ∀ pc machine, Stands stage view machine →
    Does (perform stage.env (level stage.env fuel) pc code) result
      (fun value _ after => ∃ next, post value next ∧ Stands stage next after) machine

theorem performs_nil {post : α → View μ → Prop} (holds : post value view) :
    Performs stage fuel [] view (pure value) post :=
  fun _ _ stands => ⟨view, holds, stands⟩

theorem Performs.mono {code : List Opcode} {result : Meaning α} {stronger post : α → View μ → Prop}
    (performs : Performs stage fuel code view result stronger)
    (weaker : ∀ value next, stronger value next → post value next) :
    Performs stage fuel code view result post := by
  intro pc machine stands
  refine Proc.does_mono (performs pc machine stands) ?_
  rintro value returned after ⟨next, held, stands⟩
  exact ⟨next, weaker value next held, stands⟩

/-- Code behind code, with a meaning for each -/
theorem Performs.append {front code : List Opcode} {result : Meaning α} {later : α → Meaning γ}
    {middle : α → View μ → Prop} {post : γ → View μ → Prop}
    (start : Performs stage fuel front view result middle)
    (rest : ∀ value next, result = .ok value → middle value next →
      Performs stage fuel code next (later value) post) :
    Performs stage fuel (front ++ code) view (result >>= later) post := by
  intro pc machine stands
  rw [perform_append]
  refine Proc.does_bind (start pc machine stands) ?_
  rintro value returned after same ⟨next, held, stands⟩
  exact rest value next same held _ after stands

/-- Code that means nothing by itself, in front -/
theorem Performs.after {front code : List Opcode} {value : α} {result : Meaning γ}
    {middle : α → View μ → Prop} {post : γ → View μ → Prop}
    (rest : ∀ next, middle value next → Performs stage fuel code next result post)
    (start : Performs stage fuel front view (.ok value) middle) :
    Performs stage fuel (front ++ code) view result post := by
  intro pc machine stands
  rw [perform_append]
  refine Proc.does_step (start pc machine stands) ?_
  rintro returned after ⟨next, held, stands⟩
  exact rest next held _ after stands

/-- Something made of a result -/
theorem Performs.map {code : List Opcode} {result : Meaning α} {change : α → γ}
    {middle : α → View μ → Prop} {post : γ → View μ → Prop}
    (performs : Performs stage fuel code view result middle)
    (made : ∀ value next, result = .ok value → middle value next → post (change value) next) :
    Performs stage fuel code view (result >>= fun value => pure (change value)) post := by
  intro pc machine stands
  refine Proc.does_map (performs pc machine stands) ?_
  rintro value returned after same ⟨next, held, stands⟩
  exact ⟨next, made value next same held, stands⟩

/-- Code that fails, with anything behind -/
theorem Performs.failed {front : List Opcode} {failure : Failure} {post : γ → View μ → Prop}
    (start : Performs stage fuel front view (.error failure : Meaning γ) post) (code : List Opcode) :
    Performs stage fuel (front ++ code) view (.error failure) post := by
  rw [← bind_pure (Except.error failure : Meaning γ)]
  exact start.append fun _ _ never => by cases never

/-- One opcode -/
theorem performs_one {result : Meaning α} {post : α → View μ → Prop}
    (does : ∀ machine, Stands stage view machine →
      Does (acceptOpcode stage.env (level stage.env fuel) opcode) result
        (fun value _ after => ∃ next, post value next ∧ Stands stage next after) machine) :
    Performs stage fuel [opcode] view result post := by
  intro pc machine stands
  unfold perform
  refine Proc.does_read (Proc.does_ran rfl ?_)
  rw [← bind_pure result]
  refine Proc.does_bind (does machine stands) ?_
  rintro value returned after - held
  exact held

/-- One opcode that ends in one view -/
theorem performs_to {result : Meaning α} {change : α → View μ}
    (does : ∀ machine, Stands stage view machine →
      Does (acceptOpcode stage.env (level stage.env fuel) opcode) result
        (fun value _ after => Stands stage (change value) after) machine) :
    Performs stage fuel [opcode] view result (fun value next => next = change value) :=
  performs_one fun machine stands => Proc.does_mono (does machine stands)
    fun value _ _ stands => ⟨change value, rfl, stands⟩

end Code

section Text

theorem append_does {value : Value μ} (escape : Bool)
    (stands : Stands stage { view with operands := value :: operands } machine) :
    Does (acceptAppendWith stage.env escape) (.ok ()) (fun _ _ after => Stands stage { view with
      operands := operands
      text := view.text ++ value.expression stage.mode.platform escape } after) machine := by
  unfold acceptAppendWith
  refine Proc.does_step (pop_does stands rfl) ?_
  rintro _ after ⟨rfl, stands⟩
  dsimp only
  unfold appendToBuffer
  rw [stage.platform]
  exact appendBuffer_does stands _

/-- There is nothing to append where there is no operand. -/
theorem append_nothing_does (escape : Bool)
    (stands : Stands stage { view with operands := [] } machine) :
    Does (acceptAppendWith stage.env escape) (.ok ()) (fun _ _ after =>
      Stands stage { view with operands := [] } after) machine := by
  obtain ⟨stackSet, present, stacked⟩ := stands.stackSet
  have empty : StackField.stack.get stackSet = ⟨[], 0⟩ := stacked.operands
  unfold acceptAppendWith pop
  rw [bind_assoc]
  refine Proc.does_ran (stackOf_ran _ present) ?_
  rw [empty]
  exact stands

theorem appendContent_does {text : Str} (op1 : opcode.op1 = .string text)
    (stands : Stands stage view machine) :
    Does (acceptAppendContent opcode) (.ok ()) (fun _ _ after =>
      Stands stage { view with text := view.text ++ text } after) machine := by
  unfold acceptAppendContent
  rw [op1]
  exact appendBuffer_does stands text

end Text

section Hashes

/-- A map with these entries, at some address -/
def IsMap (entries : StrMap (Value μ)) (value : Value μ) : Prop := ∃ addr, value = .map addr entries

theorem emptyHash_does (stands : Stands stage view machine)
    (room : view.operands.length < Stack.capacity) :
    Does acceptEmptyHash (.ok ()) (fun _ _ after => ∃ hash, IsMap [] hash ∧
      Stands stage { view with operands := hash :: view.operands } after) machine := by
  refine Proc.does_step (allocate_does stands) ?_
  rintro addr first ⟨-, stands⟩
  refine Proc.does_mono (push_does stands (.map addr []) room) ?_
  intro _ _ after stands
  exact ⟨_, ⟨addr, rfl⟩, stands⟩

theorem pushHash_opcode_does (stands : Stands stage view machine)
    (room : view.hashes.length < Stack.capacity) :
    Does acceptPushHash (.ok ()) (fun _ _ after => ∃ hash, IsMap [] hash ∧
      Stands stage { view with hashes := hash :: view.hashes } after) machine := by
  refine Proc.does_step (allocate_does stands) ?_
  rintro addr first ⟨-, stands⟩
  refine Proc.does_mono (pushHash_does stands (.map addr []) room) ?_
  intro _ _ after stands
  exact ⟨_, ⟨addr, rfl⟩, stands⟩

/-- The last value goes into the innermost hash. -/
theorem assignToHash_does {key : Str} {value hash : Value μ} {hashes : List (Value μ)}
    (op1 : opcode.op1 = .string key) (isMap : IsMap entries hash)
    (place : entries.length < Exec.hashCapacity) (room : hashes.length < Stack.capacity)
    (stands : Stands stage { view with operands := value :: operands, hashes := hash :: hashes }
      machine) :
    Does (acceptAssignToHash stage.env opcode) (.ok ()) (fun _ _ after =>
      ∃ hash, IsMap (StrMap.update stage.mode.platform.hash entries key value) hash ∧
        Stands stage { view with operands := operands, hashes := hash :: hashes } after) machine := by
  obtain ⟨addr, rfl⟩ := isMap
  unfold acceptAssignToHash
  refine Proc.does_step (popHash_does stands rfl) ?_
  rintro _ first ⟨rfl, stands⟩
  refine Proc.does_step (popAssert_does stands rfl) ?_
  rintro _ second ⟨rfl, stands⟩
  rw [op1]
  simp only [Operand.string?, nonnull_some, pure_bind]
  rw [if_pos place]
  refine Proc.does_step (allocate_does stands) ?_
  rintro fresh third ⟨-, stands⟩
  rw [stage.platform]
  refine Proc.does_mono (pushHash_does stands (.map fresh _) room) ?_
  intro _ _ after stands
  exact ⟨_, ⟨fresh, rfl⟩, stands⟩

theorem popHash_opcode_does {hash : Value μ} {hashes : List (Value μ)}
    (room : view.operands.length < Stack.capacity)
    (stands : Stands stage { view with hashes := hash :: hashes } machine) :
    Does acceptPopHash (.ok ()) (fun _ _ after =>
      Stands stage { view with operands := hash :: view.operands, hashes := hashes } after)
      machine := by
  refine Proc.does_step (popHash_does stands rfl) ?_
  rintro _ first ⟨rfl, stands⟩
  exact push_does stands _ room

end Hashes

section Pushes

theorem pushProgram_does {program : Int} (op1 : opcode.op1.longval?.getD (-1) = program)
    (stands : Stands stage view machine) (room : view.operands.length < Stack.capacity) :
    Does (acceptPushProgram opcode) (.ok ()) (fun _ _ after =>
      Stands stage { view with operands := .integer program :: view.operands } after) machine := by
  unfold acceptPushProgram
  rw [op1]
  exact push_does stands _ room

theorem pushLiteral_does {value : Value μ} (op1 : Exec.literalValue opcode.op1 = some value)
    (stands : Stands stage view machine) (room : view.operands.length < Stack.capacity) :
    Does (acceptPushLiteral opcode) (pure value) (fun value _ after =>
      Stands stage { view with operands := value :: view.operands } after) machine := by
  unfold acceptPushLiteral
  rw [op1]
  exact pushes_does stands value room

theorem pushString_does {text : Str} (op1 : opcode.op1 = .string text)
    (stands : Stands stage view machine) (room : view.operands.length < Stack.capacity) :
    Does (acceptPushString opcode) (pure (.string text false)) (fun value _ after =>
      Stands stage { view with operands := value :: view.operands } after) machine := by
  unfold acceptPushString
  rw [op1]
  exact pushes_does stands _ room

/-- A value that is no function stays what it is. -/
theorem resolvePossibleLambda_does {value : Value μ} {rec : Rec μ κ}
    (inside : value.Inert stage.owned) (room : operands.length < Stack.capacity)
    (stands : Stands stage { view with operands := value :: operands } machine) :
    Does (acceptResolvePossibleLambda rec) (.ok ()) (fun _ _ after =>
      Stands stage { view with operands := value :: operands } after) machine := by
  unfold acceptResolvePossibleLambda
  refine Proc.does_step (popAssert_does stands rfl) ?_
  rintro _ after ⟨rfl, stands⟩
  rw [inside.notCallable, if_neg Bool.false_ne_true]
  exact push_does stands _ room

end Pushes

section Calls

variable {names : List BlockParamPair} {bound : Nat} {call : Invocation μ} {program inverse : Int}
  {hash value : Value μ}

/-- The operands of a call: the arguments, the programs and the hash. -/
def callOperands (hash : Value μ) (program inverse : Int) (args operands : List (Value μ)) :
    List (Value μ) :=
  hash :: .integer inverse :: .integer program :: (args.reverse ++ operands)

theorem popArguments_does (values argv : List (Value μ))
    (stands : Stands stage { view with operands := values ++ operands } machine) :
    Does (setupOptions.popArguments values.length argv) (.ok ()) (fun _ returned after =>
      returned = values.reverse ++ argv ∧ Stands stage { view with operands := operands } after)
      machine := by
  induction values generalizing argv machine with
  | nil => exact ⟨rfl, stands⟩
  | cons value values ih =>
    rw [List.length_cons, setupOptions.popArguments]
    refine Proc.does_step (pop_does stands rfl) ?_
    rintro _ after ⟨rfl, stands⟩
    rw [List.reverse_cons, List.append_assoc]
    exact ih (value :: argv) stands

/-- All is there for a call: its operands on top of others, programs that do what its blocks are
for, and calls that may be nested deep enough. -/
structure Prepared (stage : Stage μ κ) (names : List BlockParamPair) (bound fuel : Nat)
    (view : View μ) (operands : List (Value μ)) (program inverse : Int) (call : Invocation μ) :
    Prop where
  program : ∀ fuel, bound ≤ fuel →
    Carries stage names operands view.hashes (level stage.env fuel) program call.program
  inverse : ∀ fuel, bound ≤ fuel →
    Carries stage names operands view.hashes (level stage.env fuel) inverse call.inverse
  args : ∀ value ∈ call.args, value.Inert stage.owned
  fits : view.scope.Fits names
  inert : view.scope.Inert stage.owned
  enough : bound + 2 ≤ fuel
  room : operands.length < Stack.capacity

/-- The options of a call, which takes its operands off the stack. -/
theorem Prepared.setupOptions
    (prepared : Prepared stage names bound fuel view operands program inverse call)
    (isMap : IsMap call.hash hash) (name : Option Str) (stands : Stands stage { view with
      operands := callOperands hash program inverse call.args operands } machine) :
    Does (setupOptions call.args.length name) (.ok ()) (fun _ returned after =>
      returned.2 = call.args ∧ returned.1.name = name ∧
      Asks stage names bound { view with operands := operands } call returned.1 ∧
      Stands stage { view with operands := operands } after) machine := by
  obtain ⟨addr, rfl⟩ := isMap
  unfold Exec.setupOptions
  refine Proc.does_step (pop_does stands rfl) ?_
  rintro _ first ⟨rfl, stands⟩
  refine Proc.does_step (topContext_does stands prepared.fits.nonempty) ?_
  rintro _ _ ⟨rfl, rfl⟩
  refine Proc.does_ran (readVm_ran _ _) ?_
  have data := stands.data
  generalize Vm.data _ = stored at data ⊢
  refine Proc.does_step (pop_does stands rfl) ?_
  rintro _ second ⟨rfl, stands⟩
  refine Proc.does_step (pop_does stands rfl) ?_
  rintro _ third ⟨rfl, stands⟩
  rw [← List.length_reverse]
  refine Proc.does_step (popArguments_does call.args.reverse [] stands) ?_
  rintro _ after ⟨rfl, stands⟩
  refine ⟨?_, rfl, ?_, stands⟩
  · rw [List.reverse_reverse, List.append_nil]
  · exact ⟨⟨addr, rfl⟩, rfl, ⟨stored, rfl, data⟩, prepared.program, prepared.inverse,
      prepared.args⟩

/-- A built-in helper is called and its result put on the stack. -/
theorem Prepared.callAndPush
    (prepared : Prepared stage names bound fuel view operands program inverse call)
    {builtin : Builtin} {options : Options μ}
    (asks : Asks stage names bound { view with operands := operands } call options)
    (named : options.name = call.name)
    (stands : Stands stage { view with operands := operands } machine) :
    Does (do
      let result ← (level stage.env fuel).valueCall (.helper (.builtin builtin)) call.args options
      push StackField.stack result) (callBuiltin stage.mode view.scope call builtin)
      (fun value _ after => Stands stage { view with operands := value :: operands } after)
      machine := by
  obtain ⟨fuel, rfl⟩ : ∃ less, fuel = less + 1 := ⟨fuel - 1, by have := prepared.enough; omega⟩
  have called := callBuiltin_does builtin asks named (Nat.le_of_succ_le_succ prepared.enough)
    prepared.fits prepared.inert stands
  rw [← bind_pure (callBuiltin _ _ _ _)]
  refine Proc.does_bind called ?_
  rintro _ value after - ⟨rfl, stands⟩
  exact pushes_does stands _ prepared.room

theorem Prepared.invokeKnownHelper
    (prepared : Prepared stage names bound fuel view operands program inverse call)
    (isMap : IsMap call.hash hash) {name : Str} {builtin : Builtin}
    (found : builtinsFind name = some builtin) (named : call.name = some name)
    (op1 : opcode.op1 = .long call.args.length) (op2 : opcode.op2 = .string name)
    (stands : Stands stage { view with
      operands := callOperands hash program inverse call.args operands } machine) :
    Does (acceptInvokeKnownHelper stage.env (level stage.env fuel) opcode)
      (callBuiltin stage.mode view.scope call builtin)
      (fun value _ after => Stands stage { view with operands := value :: operands } after)
      machine := by
  unfold acceptInvokeKnownHelper
  rw [op1, op2]
  simp only [Operand.longval?, Operand.string?, nonnull_some, pure_bind, Int.toNat_natCast]
  refine Proc.does_step (prepared.setupOptions isMap (some name) stands) ?_
  rintro ⟨options, argv⟩ after ⟨rfl, same, asks, stands⟩
  refine Proc.does_ran (lookupHelper_does stands name) ?_
  rw [found]
  exact prepared.callAndPush asks (same.trans named.symm) stands

theorem Prepared.invokeUnknownHelper
    (prepared : Prepared stage names bound fuel view operands program inverse call)
    (isMap : IsMap call.hash hash) {name : Str} (missing : builtinsFind name = none)
    {result : Meaning α} {post : α → Unit → Machine μ κ → Prop}
    (error : result = .error (.error ⟨.error, bytes "Invalid known helper: " ++ name, opcode.loc⟩))
    (op1 : opcode.op1 = .long call.args.length) (op2 : opcode.op2 = .string name)
    (stands : Stands stage { view with
      operands := callOperands hash program inverse call.args operands } machine) :
    Does (acceptInvokeKnownHelper stage.env (level stage.env fuel) opcode) result post machine := by
  unfold acceptInvokeKnownHelper
  rw [op1, op2]
  simp only [Operand.longval?, Operand.string?, nonnull_some, pure_bind, Int.toNat_natCast]
  refine Proc.does_step (prepared.setupOptions isMap (some name) stands) ?_
  rintro ⟨options, argv⟩ after ⟨rfl, same, asks, stands⟩
  refine Proc.does_ran (lookupHelper_does stands name) ?_
  rw [missing, error]
  exact raise_does stands _

/-- No function is at hand, so a name that is not built in is missing. -/
theorem chooseHelper_does (inside : value.Inert stage.owned) (isSimple : Bool) (name : Str)
    (stands : Stands stage view machine) :
    Does (chooseHelper stage.env isSimple name value) (.ok ()) (fun _ fn after =>
      fn = .helper (.builtin ((if isSimple then builtinsFind name else none).getD
        .helperMissing)) ∧ after = machine) machine := by
  have missing : Does (do nonnull (← lookupHelper stage.env (bytes "helperMissing"))) (.ok ())
      (fun _ fn after => fn = .helper (.builtin .helperMissing) ∧ after = machine) machine := by
    refine Proc.does_ran (lookupHelper_does stands _) ?_
    rw [show builtinsFind (bytes "helperMissing") = some .helperMissing by decide]
    exact ⟨rfl, rfl⟩
  unfold chooseHelper
  rw [inside.notCallable]
  cases isSimple with
  | false =>
    rw [if_neg Bool.false_ne_true, pure_bind]
    exact missing
  | true =>
    rw [if_pos rfl]
    refine Proc.does_ran (lookupHelper_does stands name) ?_
    cases builtinsFind name with
    | none => exact missing
    | some builtin => exact ⟨rfl, rfl⟩

theorem Prepared.invokeHelper
    (prepared : Prepared stage names bound fuel view operands program inverse call)
    (isMap : IsMap call.hash hash) (inside : value.Inert stage.owned) {name : Str} {isSimple : Bool}
    (named : call.name = some name) (op1 : opcode.op1 = .long call.args.length)
    (op2 : opcode.op2 = .string name) (op3 : opcode.op3 = .boolean isSimple)
    (stands : Stands stage { view with
      operands := value :: callOperands hash program inverse call.args operands } machine) :
    Does (acceptInvokeHelper stage.env (level stage.env fuel) opcode)
      (callBuiltin stage.mode view.scope call
        ((if isSimple then builtinsFind name else none).getD .helperMissing))
      (fun value _ after => Stands stage { view with operands := value :: operands } after)
      machine := by
  unfold acceptInvokeHelper
  refine Proc.does_step (popAssert_does stands rfl) ?_
  rintro _ first ⟨rfl, stands⟩
  rw [op1, op2, op3]
  simp only [Operand.longval?, Operand.string?, Operand.boolval?, nonnull_some, pure_bind,
    Int.toNat_natCast]
  refine Proc.does_step (prepared.setupOptions isMap (some name) stands) ?_
  rintro ⟨options, argv⟩ second ⟨rfl, same, asks, stands⟩
  refine Proc.does_step (chooseHelper_does inside isSimple name stands) ?_
  rintro _ _ ⟨rfl, rfl⟩
  exact prepared.callAndPush asks (same.trans named.symm) stands

theorem chooseAmbiguous_does (inside : value.Inert stage.owned) (opcode : Opcode) {name : Str}
    (unknown : builtinsFind name = none) (stands : Stands stage view machine) :
    Does (chooseAmbiguous stage.env opcode name value) (.ok ()) (fun _ returned after =>
      returned = (.helper (.builtin .helperMissing), value, none) ∧ after = machine) machine := by
  unfold chooseAmbiguous
  refine Proc.does_ran (readVm_ran _ _) ?_
  rw [if_neg (by rw [inside.notCallable]; simp)]
  refine Proc.does_ran (lookupHelper_does stands name) ?_
  rw [unknown, inside.notCallable]
  refine Proc.does_ran (lookupHelper_does stands _) ?_
  rw [show builtinsFind (bytes "helperMissing") = some .helperMissing by decide]
  exact ⟨rfl, rfl⟩

/-- A name that is no helper stands for its value. -/
theorem Prepared.invokeAmbiguous
    (prepared : Prepared stage names bound fuel view operands program inverse call)
    (plain : call.args = [] ∧ call.hash = []) (inside : value.Inert stage.owned) {name : Str}
    (unknown : builtinsFind name = none) (op1 : opcode.op1 = .string name)
    (room : operands.length + 2 < Stack.capacity)
    (stands : Stands stage { view with
      operands := value :: .integer inverse :: .integer program :: operands } machine) :
    Does (acceptInvokeAmbiguous stage.env (level stage.env fuel) opcode) (.ok ())
      (fun _ _ after => Stands stage { view with operands := value :: operands } after)
      machine := by
  obtain ⟨less, rfl⟩ : ∃ less, fuel = less + 1 := ⟨fuel - 1, by have := prepared.enough; omega⟩
  obtain ⟨args, entries⟩ := plain
  unfold acceptInvokeAmbiguous
  refine Proc.does_step (popAssert_does stands rfl) ?_
  rintro value first ⟨rfl, stands⟩
  refine Proc.does_step (emptyHash_does stands room) ?_
  rintro _ second ⟨hash, isMap, stands⟩
  rw [op1]
  simp only [Operand.string?, nonnull_some, pure_bind]
  rw [← entries] at isMap
  have ready := prepared.setupOptions isMap (some name) (show Stands stage _ second by rw [args]; exact stands)
  rw [args] at ready
  refine Proc.does_step ready ?_
  rintro ⟨options, argv⟩ third ⟨same, -, -, stands⟩
  refine Proc.does_ran rfl ?_
  replace stands := stands.withoutLastHelper
  refine Proc.does_step (chooseAmbiguous_does inside opcode unknown stands) ?_
  rintro _ _ ⟨rfl, rfl⟩
  dsimp only at same ⊢
  rw [same]
  refine Proc.does_ran (show _ = (Outcome.ok Value.null _, _) from rfl) ?_
  simp only [Value.realType, if_true]
  refine Proc.does_step (push_does stands value prepared.room) ?_
  intro _ after stands
  exact stands.withoutLastHelper

/-- A block whose name is a value and not a helper -/
theorem Prepared.blockHelperMissing
    (prepared : Prepared stage names bound fuel view operands program inverse call)
    (args : call.args = [value]) {options : Options μ}
    (asks : Asks stage names bound { view with operands := operands } call options)
    (stands : Stands stage { view with operands := operands } machine) :
    Does (callHelperStr stage.env (level stage.env fuel) (bytes "blockHelperMissing") call.args
        options) (textValue (valueBlock stage.mode view.scope call value))
      (fun value returned after => returned = some value ∧
        Stands stage { view with operands := operands } after) machine := by
  obtain ⟨fuel, rfl⟩ : ∃ less, fuel = less + 1 := ⟨fuel - 1, by have := prepared.enough; omega⟩
  have inside : value.Inert stage.owned := prepared.args value (by rw [args]; simp)
  rw [args]
  exact callHelperStr_does (show builtinsFind _ = some .blockHelperMissing by decide) stands
    (blockHelperMissing_does asks (Nat.le_of_succ_le_succ prepared.enough) inside prepared.fits
      prepared.inert stands)

theorem Prepared.ambiguousBlockValue
    (prepared : Prepared stage names bound fuel view operands program inverse call)
    (isMap : IsMap call.hash hash) (args : call.args = [value])
    (stands : Stands stage { view with
      operands := callOperands hash program inverse call.args operands } machine) :
    Does (acceptAmbiguousBlockValue stage.env (level stage.env fuel))
      (textValue (valueBlock stage.mode view.scope call value))
      (fun value _ after => Stands stage { view with operands := value :: operands } after)
      machine := by
  unfold acceptAmbiguousBlockValue
  refine Proc.does_ran (readVm_ran _ _) ?_
  rw [stands.lastHelper]
  have ready := prepared.setupOptions isMap none stands
  rw [show call.args.length = 1 by rw [args]; rfl] at ready
  refine Proc.does_step ready ?_
  rintro ⟨options, argv⟩ first ⟨rfl, -, asks, stands⟩
  rw [← bind_pure (textValue _)]
  refine Proc.does_bind (prepared.blockHelperMissing args asks stands) ?_
  rintro value _ second - ⟨rfl, stands⟩
  exact pushes_does stands _ prepared.room

theorem Prepared.blockValue
    (prepared : Prepared stage names bound fuel view operands program inverse call)
    (isMap : IsMap call.hash hash) (args : call.args = [value]) {name : Str}
    (op1 : opcode.op1 = .string name)
    (stands : Stands stage { view with
      operands := callOperands hash program inverse call.args operands } machine) :
    Does (acceptBlockValue stage.env (level stage.env fuel) opcode)
      (textValue (μ := μ) (valueBlock stage.mode view.scope call value))
      (fun value _ after => Stands stage { view with
        operands := operands
        text := view.text ++ value.expression stage.mode.platform false } after) machine := by
  unfold acceptBlockValue
  rw [op1]
  simp only [Operand.string?, nonnull_some, pure_bind]
  have ready := prepared.setupOptions isMap (some name) stands
  rw [show call.args.length = 1 by rw [args]; rfl] at ready
  refine Proc.does_step ready ?_
  rintro ⟨options, argv⟩ first ⟨rfl, -, asks, stands⟩
  rw [← bind_pure (textValue _)]
  refine Proc.does_bind (prepared.blockHelperMissing args asks stands) ?_
  rintro value _ second - ⟨rfl, stands⟩
  dsimp only
  unfold appendToBuffer
  rw [stage.platform]
  exact Proc.does_for value (appendBuffer_does stands _)

end Calls

/-- An opcode that the VM does not handle -/
theorem unhandled_does {rec : Rec μ κ} {post : α → Unit → Machine μ κ → Prop}
    (other : opcode.type = .pushStringParam ∨ opcode.type = .pushId)
    (stands : Stands stage view machine) :
    Does (acceptOpcode stage.env rec opcode) (unhandled opcode.type : Meaning α) post machine := by
  unfold acceptOpcode unhandled
  rcases other with same | same
  · rw [same]
    exact raiseError_does stands _
  · rw [same]
    exact raiseError_does stands _

end Render

end HandlebarsC
