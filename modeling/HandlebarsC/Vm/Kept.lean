import HandlebarsC.Vm.Scopes

/-!
The opcodes and the programs of the VM give everything back, and the invariants of its
scopes hold at every opcode that is executed.
-/

namespace HandlebarsC

open Effect

namespace Exec

variable {μ κ : Type} {env : Env μ κ} {inv : Invariant env} {exact : Bool} {rec : Rec μ κ}

namespace Kept

section Opcodes

theorem popArguments (argc : Nat) (argv : List (Value μ)) :
    Kept inv exact (setupOptions.popArguments argc argv : Exec μ κ _) := by
  induction argc generalizing argv with
  | zero => exact .pure argv
  | succ argc ih => exact .bind (.pop _) fun _ => ih _

theorem setupOptions (argc : Nat) (name : Option Str) :
    Kept inv exact (Exec.setupOptions argc name : Exec μ κ _) := by
  unfold Exec.setupOptions
  refine .bind (.pop _) fun hash => .bind .topContext fun scope => ?_
  refine .bind (.readVm _) fun data => .bind (.pop _) fun inverse => ?_
  refine .bind (.pop _) fun program => ?_
  exact .bind (.popArguments argc []) fun _ => .pure _

theorem acceptAmbiguousBlockValue (calls : Rec.Kept inv rec) :
    Kept inv false (Exec.acceptAmbiguousBlockValue env rec) := by
  unfold Exec.acceptAmbiguousBlockValue
  refine .bind (.readVm _) fun lastHelper => ?_
  cases lastHelper with
  | none =>
    refine .bind (.setupOptions 1 none) fun options => ?_
    refine .bind (.callHelperStr calls _ _ _) fun found => ?_
    exact .bind (.nonnull found) fun _ => .push _ _
  | some lastHelper =>
    refine .bind (.setupOptions 0 none) fun options => ?_
    exact .ite (.writeVm fun _ => rfl) (.pure ())

theorem acceptAppendWith (escape : Bool) : Kept inv exact (Exec.acceptAppendWith env escape) := by
  unfold Exec.acceptAppendWith
  refine .bind (.pop _) fun value => ?_
  cases value with
  | none => exact .pure ()
  | some value => exact .appendBuffer _

theorem acceptAssignToHash (opcode : Opcode) :
    Kept inv exact (Exec.acceptAssignToHash env opcode) := by
  unfold Exec.acceptAssignToHash
  refine .bind (.popAssert _) fun hash => .bind (.popAssert _) fun value => ?_
  refine .bind (.nonnull _) fun key => ?_
  split
  · split
    · exact .bind .allocate fun _ => .push _ _
    · exact .abort
  · exact .abort

theorem acceptBlockValue (calls : Rec.Kept inv rec) (opcode : Opcode) :
    Kept inv false (Exec.acceptBlockValue env rec opcode) := by
  unfold Exec.acceptBlockValue
  refine .bind (.nonnull _) fun name => .bind (.setupOptions 1 _) fun options => ?_
  refine .bind (.callHelperStr calls _ _ _) fun result => ?_
  cases result with
  | none => exact .pure ()
  | some result => exact .appendBuffer _

theorem acceptEmptyHash : Kept inv exact (Exec.acceptEmptyHash : Exec μ κ Unit) :=
  .bind .allocate fun _ => .push _ _

theorem acceptGetContext (opcode : Opcode) :
    Kept inv exact (Exec.acceptGetContext opcode : Exec μ κ Unit) := by
  unfold Exec.acceptGetContext setLastContext
  refine .bind (.nonnull _) fun depth => .bind (.stackOf _) fun stack => ?_
  refine .bind (.readVm _) fun cell => .bind (.nonnull cell) fun _ => ?_
  exact .writeVm fun _ => rfl

theorem chooseAmbiguous (opcode : Opcode) (name : Str) (value : Value μ) :
    Kept inv exact (Exec.chooseAmbiguous env opcode name value) := by
  unfold Exec.chooseAmbiguous
  refine .bind (.readVm _) fun flags => .ite ?_ (.bind (.lookupHelper name) fun found => ?_)
  · refine .bind (.nonnull _) fun lambdaTmpl => .bind (.nonnull _) fun useDelimiters => ?_
    exact .bind .allocate fun _ => .pure _
  · cases found with
    | some helper => exact .pure _
    | none =>
      refine .ite (.pure _) (.bind (.lookupHelper _) fun missing => ?_)
      exact .bind (.nonnull missing) fun _ => .pure _

theorem acceptInvokeAmbiguous (calls : Rec.Kept inv rec) (opcode : Opcode) :
    Kept inv false (Exec.acceptInvokeAmbiguous env rec opcode) := by
  unfold Exec.acceptInvokeAmbiguous
  refine .bind (.popAssert _) fun value => .bind .acceptEmptyHash fun _ => ?_
  refine .bind (.nonnull _) fun name => .bind (.setupOptions 0 _) fun options => ?_
  refine .bind (.writeVm fun _ => rfl) fun _ => ?_
  refine .bind (.chooseAmbiguous opcode name value) fun chosen => ?_
  refine .bind (calls.valueCall _ _ _) fun result => .bind (.push _ _) fun _ => ?_
  exact .writeVm fun _ => rfl

theorem chooseHelper (isSimple : Bool) (name : Str) (value : Value μ) :
    Kept inv exact (Exec.chooseHelper env isSimple name value) := by
  unfold Exec.chooseHelper
  refine .bind (.ite (.lookupHelper name) (.pure none)) fun found => ?_
  cases found with
  | some helper => exact .pure helper
  | none => exact .ite (.pure value) (.bind (.lookupHelper _) fun _ => .nonnull _)

theorem acceptInvokeHelper (calls : Rec.Kept inv rec) (opcode : Opcode) :
    Kept inv false (Exec.acceptInvokeHelper env rec opcode) := by
  unfold Exec.acceptInvokeHelper
  refine .bind (.popAssert _) fun value => .bind (.nonnull _) fun argc => ?_
  refine .bind (.nonnull _) fun name => .bind (.nonnull _) fun isSimple => ?_
  refine .bind (.setupOptions _ _) fun options => .bind (.chooseHelper _ _ _) fun fn => ?_
  exact .bind (calls.valueCall _ _ _) fun _ => .push _ _

theorem acceptInvokeKnownHelper (calls : Rec.Kept inv rec) (opcode : Opcode) :
    Kept inv false (Exec.acceptInvokeKnownHelper env rec opcode) := by
  unfold Exec.acceptInvokeKnownHelper
  refine .bind (.nonnull _) fun argc => .bind (.nonnull _) fun name => ?_
  refine .bind (.setupOptions _ _) fun options => .bind (.lookupHelper _) fun found => ?_
  cases found with
  | some fn => exact .bind (calls.valueCall _ _ _) fun _ => .push _ _
  | none => exact .raise _

theorem partialName (opcode : Opcode) (isDynamic : Bool) :
    Kept inv exact (Exec.partialName opcode isDynamic : Exec μ κ (Option Str)) := by
  unfold Exec.partialName
  refine .ite (.bind (.popAssert _) fun _ => .pure _) ?_
  split
  · exact .pure _
  · exact .pure _
  · exact .pure _
  · exact .abort

theorem findPartial (name : Option Str) : Kept inv exact (Exec.findPartial env name) := by
  unfold Exec.findPartial
  cases name with
  | none => exact .pure none
  | some name =>
    refine .bind (.readVm _) fun partials => .bind (.mapFind _ partials name) fun found => ?_
    cases found with
    | some found => exact .pure _
    | none => exact .ite (.bind (.stackOf _) fun _ => .pure _) (.pure none)

theorem mergeHash (input : Value μ) (hash : Option (Value μ)) :
    Kept inv false (Exec.mergeHash env input hash) := by
  unfold Exec.mergeHash
  cases hash with
  | none => exact .pure input
  | some hash =>
    refine .ite ?_ (.ite (.pure hash) (.pure input))
    refine .bind (.copyEntries _ input []) fun entries => ?_
    exact .bind (.copyEntries _ hash entries) fun _ => .bind .allocate fun _ => .pure _

theorem callPartial (calls : Rec.Kept inv rec) (name : Option Str) (value : Value μ) (indent : Str)
    (argv : List (Value μ)) (options : Options μ) :
    Kept inv false (Exec.callPartial env rec name value indent argv options) := by
  unfold Exec.callPartial
  refine .bind ?_ fun value => .ite ?_ (.raiseError _)
  · unfold wrapPartial
    split
    · exact .bind (.readVm _) fun _ => .bind .allocate fun _ => .pure _
    · exact .pure _
  · exact .bind (calls.valueCall _ _ _) fun _ => .bind (.readVm _) fun _ => .appendBuffer _

theorem choosePartial (found : Option (Value μ)) (name : Option Str) (program : Int)
    (block : Option (PartialBlock μ)) :
    Kept inv exact (Exec.choosePartial found name program block : Exec μ κ _) := by
  unfold Exec.choosePartial
  cases found with
  | some found => exact .pure _
  | none => exact .ite (.pure _) (.bind (.readVm _) fun _ => .ite (.pure none) (.raiseError _))

theorem invokePartial (calls : Rec.Kept inv rec) (name : Option Str) (indent : Str)
    (options : Options μ) (argv : List (Value μ)) (found : Option (Value μ))
    (block : Option (PartialBlock μ)) :
    Kept inv false (Exec.invokePartial env rec name indent options argv found block) := by
  unfold Exec.invokePartial
  refine .bind (.mergeHash _ _) fun input => .bind (.choosePartial _ _ _ _) fun chosen => ?_
  cases chosen with
  | some value => exact .callPartial calls _ _ _ _ _
  | none => exact .pure ()

/-- A new block is opened on top of those that are open. -/
theorem withNewBlock (program : Int) {body : PartialBlock μ → Exec μ κ α}
    (kept : ∀ block, Kept inv false (body block)) :
    Kept inv false (do
      let block ← newPartialBlock program
      Exec.withPartialBlock block (body block)) := by
  intro machine
  unfold newPartialBlock
  simp only [bind_assoc, pure_bind]
  refine (Kept.readVm _ machine).bind fun module between _ => ?_
  refine (Kept.nonnull module between).bind fun module between _ => ?_
  refine (Kept.allocate between).bind fun addr between _ => ?_
  refine (Kept.allocate between).bind fun moduleAddr between _ => ?_
  intro ready
  apply Proc.logs_bind
  refine Proc.logs_mono (stackOf_logs _ fun stackSet present => ?_) (fun _ logged => logged)
    (fun _ _ holds => holds) (fun _ _ => nofun)
  refine withPartialBlock _ (kept _) (inv.opens _ ?_ ready) ready
  rw [scopes_of present]
  rfl

theorem acceptInvokePartial (calls : Rec.Kept inv rec) (opcode : Opcode) :
    Kept inv false (Exec.acceptInvokePartial env rec opcode) := by
  unfold Exec.acceptInvokePartial
  refine .bind (.nonnull _) fun isDynamic => .bind (.nonnull _) fun indent => ?_
  refine .bind (.setupOptions 1 none) fun options => ?_
  refine .bind (.partialName _ _) fun name => .bind (.findPartial name) fun found => ?_
  refine .ite (.withNewBlock _ fun block => ?_) (.invokePartial calls _ _ _ _ _ _)
  exact .invokePartial calls _ _ _ _ _ _

theorem followParts (platform : Platform) (value : Value μ) (parts : List Str) :
    Kept inv exact (Exec.followParts platform value parts : Exec μ κ (Value μ)) := by
  induction parts generalizing value with
  | nil => exact .pure value
  | cons part rest ih =>
    unfold Exec.followParts
    refine .bind (.mapFind platform value part) fun found => ?_
    cases found with
    | some found => exact ih found
    | none => exact .pure value

theorem acceptLookupBlockParam (opcode : Opcode) :
    Kept inv exact (Exec.acceptLookupBlockParam env opcode) := by
  unfold Exec.acceptLookupBlockParam
  refine .bind (.nonnull _) fun parts => ?_
  split
  · refine .bind (.stackOf _) fun stack => .bind ?_ fun v2 => ?_
    · unfold blockParamValue
      split
      · exact .ite (.arrayFind _ _) (.pure none)
      · exact .pure none
    · cases v2 with
      | some v2 => exact .bind (.followParts _ _ _) fun _ => .push _ _
      | none => exact .push _ _
  · exact .abort

theorem parentData (platform : Platform) (depth : Nat) (data : Value μ) :
    Kept inv exact (Exec.parentData platform depth data : Exec μ κ (Value μ)) := by
  induction depth generalizing data with
  | zero => exact .pure data
  | succ depth ih => exact .bind (.mapFind platform data _) fun _ => ih _

theorem firstData (data : Value μ) (first : Str) :
    Kept inv exact (Exec.firstData env data first) := by
  unfold Exec.firstData
  refine .bind (.mapFind _ data first) fun found => ?_
  cases found with
  | some found => exact .pure _
  | none =>
    refine .ite (.bind .topContext fun _ => .pure _) (.ite ?_ (.pure none))
    exact .bind (.stackOf _) fun _ => .bind (.nonnull _) fun _ => .pure _

theorem laterData (isStrict : Bool) (parts : List Str) (value : Value μ) :
    Kept inv exact (Exec.laterData env isStrict parts value) := by
  induction parts generalizing value with
  | nil => exact .pure _
  | cons part rest ih =>
    unfold Exec.laterData
    refine .bind (.ite (.mapFind _ _ _) (.pure none)) fun found => ?_
    cases found with
    | some found => exact ih found
    | none => exact .ite (.pure none) (ih value)

theorem acceptLookupData (opcode : Opcode) : Kept inv exact (Exec.acceptLookupData env opcode) := by
  unfold Exec.acceptLookupData
  refine .bind (.nonnull _) fun depth => .bind (.nonnull _) fun parts => ?_
  refine .bind (.nonnull _) fun terminal => .bind (.nonnull _) fun first => ?_
  refine .bind (.readVm _) fun vm => .bind (.parentData _ _ _) fun data => ?_
  refine .bind (.firstData data first) fun found => ?_
  cases found with
  | none => exact .ite (.raise _) (.push _ _)
  | some value =>
    refine .bind (.laterData _ _ _) fun found => ?_
    cases found with
    | none => exact .raise _
    | some value => exact .ite (.raise _) (.push _ _)

theorem acceptPushContext : Kept inv exact (Exec.acceptPushContext : Exec μ κ Unit) :=
  .bind (.readVm _) fun _ => .bind (.nonnull _) fun _ => .push _ _

theorem depthedLookup (key : Str) : Kept inv exact (Exec.depthedLookup env key) := by
  unfold Exec.depthedLookup
  refine .bind (.stackOf _) fun stack => .bind ?_ fun _ => .push _ _
  induction stack.v with
  | nil => exact .pure none
  | cons value rest ih =>
    unfold depthedLookup.search
    refine .ite (.bind (.mapFind _ value key) fun found => ?_) ih
    cases found with
    | some found => exact .pure _
    | none => exact ih

theorem walkContext (isStrict assumeObjects : Bool) (index : Int) (parts : List Str)
    (value : Value μ) :
    Kept inv exact (Exec.walkContext env isStrict assumeObjects index parts value) := by
  induction parts generalizing index value with
  | nil => exact .pure _
  | cons part rest ih =>
    unfold Exec.walkContext
    refine .ite (.bind (.mapFind _ value part) fun found => ?_)
      (.ite (.bind ?_ fun found => ?_) (.pure _))
    · cases found with
      | some found => exact ih index found
      | none => exact .pure _
    · unfold findIndex
      split
      · exact .bind (.arrayFind value _) fun _ => .pure _
      · exact .bind (.arrayFind value _) fun _ => .pure _
      · exact .pure _
    · obtain ⟨index, found⟩ := found
      cases found with
      | some found => exact ih index found
      | none => exact .pure _

theorem acceptLookupOnContext (opcode : Opcode) :
    Kept inv exact (Exec.acceptLookupOnContext env opcode) := by
  unfold Exec.acceptLookupOnContext
  refine .bind (.nonnull _) fun parts => .bind (.nonnull _) fun terminal => ?_
  refine .bind (.nonnull _) fun isScoped => .bind (.nonnull _) fun first => ?_
  refine .bind (.readVm _) fun flags => ?_
  refine .bind (.ite (.depthedLookup first) .acceptPushContext) fun _ => ?_
  refine .bind (.popAssert _) fun value => .bind (.walkContext _ _ _ _ _) fun walked => ?_
  cases walked with
  | found value => exact .push _ _
  | missing part => exact .ite (.raise _) (.push _ _)
  | err part => exact .raise _

/-- No opcode changes the data, or leaves a program or an iteration in progress. -/
theorem acceptOpcode (calls : Rec.Kept inv rec) (opcode : Opcode) :
    Kept inv false (Exec.acceptOpcode env rec opcode) := by
  unfold Exec.acceptOpcode
  split
  · exact .acceptAmbiguousBlockValue calls
  · exact .acceptAppendWith false
  · exact .acceptAppendWith true
  · exact .bind (.nonnull _) fun _ => .appendBuffer _
  · exact .acceptAssignToHash opcode
  · exact .acceptBlockValue calls opcode
  · exact .acceptGetContext opcode
  · exact .acceptEmptyHash
  · exact .acceptInvokeAmbiguous calls opcode
  · exact .acceptInvokeHelper calls opcode
  · exact .acceptInvokeKnownHelper calls opcode
  · exact .acceptInvokePartial calls opcode
  · exact .acceptLookupBlockParam opcode
  · exact .acceptLookupData opcode
  · exact .acceptLookupOnContext opcode
  · exact .bind (.popAssert _) fun _ => .push _ _
  · exact .acceptPushContext
  · exact .bind .allocate fun _ => .push _ _
  · exact .push _ _
  · exact .bind (.nonnull _) fun _ => .push _ _
  · exact .bind (.nonnull _) fun _ => .push _ _
  · refine .bind (.popAssert _) fun value => .ite ?_ (.push _ value)
    exact .bind .topContext fun _ => .bind (calls.valueCall _ _ _) fun _ => .push _ _
  · exact .raiseError _

end Opcodes


end Kept

end Exec

/-- What a program finds that is entered. -/
def Setting.entered (env : Env μ κ) (context : Value μ) (data blockParams : Option (Value μ))
    (setting : Setting μ) : Setting μ :=
  { setting with
    data := data.getD setting.data
    scopes := setting.scopes.entered env context blockParams }

/-- An opcode of the innermost program in progress is executed, in its own setting. -/
def Event.Own {env : Env μ κ} (inv : Invariant env) (machine : Machine μ κ) : Event μ κ → Prop
  | opcode vm activations _ _ => inv.holds vm.scopes activations ∧
      activations = machine.activations ∧ vm.setting = machine.vm.setting
  | _ => False

/-- An opcode is executed by the program that was entered, or by one inside it. -/
def Event.Entered {env : Env μ κ} (inv : Invariant env) (machine : Machine μ κ)
    (activation : Activation μ) (data : Option (Value μ)) : Event μ κ → Prop
  | opcode vm activations _ _ => inv.holds vm.scopes activations ∧
      (activations = activation :: machine.activations ∧ vm.setting =
          machine.vm.setting.entered env activation.context data activation.blockParams ∨
        (∃ inner other, activations = inner ++ other :: activation :: machine.activations) ∧
          (machine.vm.scopes.entered env activation.context activation.blockParams).Below
            vm.scopes ∧ vm.registered = machine.vm.registered)
  | _ => True

namespace Exec

variable {μ κ : Type} {env : Env μ κ} {inv : Invariant env} {rec : Rec μ κ}

/-- What the opcodes of a program may do. -/
def running (inv : Invariant env) : Frame (Machine μ κ) (Event μ κ) :=
  { kept inv false with
    logs := fun machine event => event.Own inv machine ∨ event.Within inv machine
    logs_after := by
      intro first middle event stayed logged
      rcases logged with own | within
      · left
        cases event with
        | opcode vm activations pc opcode =>
          obtain ⟨holds, programs, setting⟩ := own
          exact ⟨holds, programs.trans stayed.activations, setting.trans stayed.setting⟩
        | _ => exact own.elim
      · exact .inr ((kept inv false).logs_after stayed within) }

theorem Kept.running {proc : Exec μ κ α} (kept : Kept inv false proc) (machine : Machine μ κ) :
    (running inv).Keeps proc machine := fun ready =>
  Proc.logs_mono (kept machine ready) (fun _ within => .inr within) (fun _ _ stayed => stayed)
    fun _ left => left

theorem accept_keeps (calls : Rec.Kept inv rec) (pc : Nat) (code : List Opcode)
    (machine : Machine μ κ) : (running inv).Keeps (accept env rec pc code) machine := by
  induction code generalizing pc machine with
  | nil => exact Frame.keeps_abort
  | cons opcode rest ih =>
    unfold accept
    refine .ite (fun _ => Frame.keeps_pure ()) fun _ => Frame.Keeps.read ?_
    refine Frame.Keeps.bind ?_ fun _ between _ => ?_
    · exact fun ready => Proc.logs_emit fun _ => ⟨.inl ⟨ready, rfl, rfl⟩, .refl machine⟩
    · exact ((Kept.acceptOpcode calls opcode).running between).bind fun _ after _ => ih _ after

section Programs

variable {machine : Machine μ κ} {quiet seen : Event μ κ → Prop}

/-- The machine in the setting that a program was entered with. -/
structure Begun (env : Env μ κ) (machine : Machine μ κ) (activation : Activation μ)
    (data : Option (Value μ)) (begun : Machine μ κ) : Prop where
  setting : begun.vm.setting =
    machine.vm.setting.entered env activation.context data activation.blockParams
  activations : begun.activations = activation :: machine.activations

theorem Begun.held {activation : Activation μ} {data : Option (Value μ)}
    {begun after : Machine μ κ} (start : Begun env machine activation data begun)
    (held : Held begun after) : Begun env machine activation data after :=
  ⟨held.setting.trans start.setting, held.activations.trans start.activations⟩

theorem Begun.scopes {activation : Activation μ} {data : Option (Value μ)}
    {begun : Machine μ κ} (start : Begun env machine activation data begun) : begun.vm.scopes =
      machine.vm.scopes.entered env activation.context activation.blockParams :=
  congrArg Setting.scopes start.setting

theorem Begun.entered {activation : Activation μ} {data : Option (Value μ)}
    {begun : Machine μ κ} (start : Begun env machine activation data begun) {event : Event μ κ}
    (happened : event.Own inv begun ∨ event.Within inv begun) :
    event.Entered inv machine activation data := by
  cases event with
  | opcode vm activations pc opcode =>
    rcases happened with ⟨holds, programs, setting⟩ | ⟨holds, present, below, same⟩
    · exact ⟨holds, .inl ⟨programs.trans start.activations, setting.trans start.setting⟩⟩
    · rw [start.activations] at present
      rw [start.scopes] at below
      exact ⟨holds, .inr ⟨present, below,
        same.trans (congrArg Setting.registered start.setting)⟩⟩
  | _ => trivial

theorem withStack_same {stackSet : Stacks μ} (present : machine.vm.stackSet = some stackSet) :
    machine = Machine.withStack StackField.contextStack machine stackSet stackSet.contextStack := by
  obtain ⟨vm, activations⟩ := machine
  cases vm
  cases present
  rfl

theorem pushContext_logs (context : Value μ) {post : Unit → Machine μ κ → Prop}
    (holds : ∀ stackSet, machine.vm.stackSet = some stackSet →
      post () (Machine.withStack StackField.contextStack machine stackSet
        ⟨Scopes.withContext env.platform context stackSet.contextStack.v,
          stackSet.contextStack.protect⟩)) :
    (pushContext env context).Logs quiet seen post (fun _ => True) machine := by
  unfold pushContext
  apply Proc.logs_bind
  refine stackOf_logs _ fun stackSet present => ?_
  have met := holds stackSet present
  have pushed : (push StackField.contextStack context : Exec μ κ Unit).Logs quiet seen
      (fun _ after => after = Machine.withStack StackField.contextStack machine stackSet
        ⟨context :: stackSet.contextStack.v, stackSet.contextStack.protect⟩)
      (fun _ => True) machine := by
    refine push_logs _ _ fun again found => ?_
    cases present.symm.trans found
    rfl
  rw [show (StackField.contextStack.get stackSet).top = stackSet.contextStack.v.head? from rfl]
  unfold Scopes.withContext at met
  cases top : stackSet.contextStack.v with
  | nil =>
    rw [top] at met pushed
    refine Proc.logs_mono pushed (fun _ logged => logged) ?_ (fun _ left => left)
    rintro _ _ rfl
    exact met
  | cons value rest =>
    rw [top] at met pushed
    dsimp only [List.head?_cons] at met ⊢
    by_cases same : value.eq env.platform context
    · rw [if_pos same]
      rw [if_pos same, ← top] at met
      exact Proc.logs_pure (withStack_same present ▸ met)
    · rw [if_neg same]
      rw [if_neg same] at met
      refine Proc.logs_mono pushed (fun _ logged => logged) ?_ (fun _ left => left)
      rintro _ _ rfl
      exact met

theorem pushBlockParams_logs (blockParams : Option (Value μ)) {post : Unit → Machine μ κ → Prop}
    {stackSet : Stacks μ} (present : machine.vm.stackSet = some stackSet)
    (holds : ∀ after, after.activations = machine.activations → after.vm.setting =
      { machine.vm.setting with scopes := { stackSet.scopes with blockParamStack :=
          ⟨blockParams.toList ++ stackSet.blockParamStack.v, stackSet.blockParamStack.protect⟩ } } →
      post () after) :
    (pushBlockParams blockParams).Logs quiet seen post (fun _ => True) machine := by
  cases blockParams with
  | none =>
    refine Proc.logs_pure (holds machine rfl ?_)
    change Setting.mk _ _ _ _ _ machine.vm.scopes = _
    rw [scopes_of present]
    rfl
  | some blockParams =>
    refine push_logs _ _ fun again found => ?_
    cases present.symm.trans found
    exact holds _ rfl rfl

theorem setData_logs (data : Option (Value μ)) {post : Unit → Machine μ κ → Prop}
    (holds : post ()
      { machine with vm := { machine.vm with data := data.getD machine.vm.data } }) :
    (setData data : Exec μ κ Unit).Logs quiet seen post (fun _ => True) machine := by
  cases data with
  | none => exact Proc.logs_pure holds
  | some data => exact Proc.logs_write holds

/-- Everything that was saved is put back, as long as it is still there. -/
theorem restore_spec {num protect : Nat} {rest lower upper : List α}
    (height : lower.length = num) (below : lower <:+ upper)
    (truncated : Stack.truncateLoop num protect upper = .ok rest) : rest = lower := by
  obtain ⟨more, rfl⟩ := below
  subst height
  induction more with
  | nil =>
    cases lower with
    | nil =>
      cases truncated
      rfl
    | cons value lower =>
      simp only [List.nil_append, Stack.truncateLoop, Nat.le_refl, if_true] at truncated
      cases truncated
      rfl
  | cons value more ih =>
    simp only [List.cons_append, Stack.truncateLoop] at truncated
    have longer : ¬(value :: (more ++ lower)).length ≤ lower.length := by
      simp only [List.length_cons, List.length_append]
      omega
    rw [if_neg longer] at truncated
    split at truncated
    · cases truncated
    · exact ih truncated

theorem restoreOperands_logs (field : StackField μ α) [Kept.Operand field] (protect count : Nat)
    {post : Unit → Machine μ κ → Prop}
    (holds : ∀ after, Held machine after → post () after) :
    (restore field protect count : Exec μ κ Unit).Logs quiet seen post (fun _ => True) machine := by
  refine restore_logs field protect count fun stackSet rest present _ => holds _ ⟨?_, rfl⟩
  change Setting.mk _ _ _ _ _ (field.set stackSet ⟨rest, protect⟩).scopes =
    Setting.mk _ _ _ _ _ _
  rw [Kept.Operand.scopes stackSet ⟨rest, protect⟩, scopes_of present]
  rfl

/-- A stack of the scopes is put back as it was saved. -/
theorem restoreScope_logs (field : StackField μ α) (saved : Stack α) (view : Scopes μ → Stack α)
    (change : Scopes μ → Scopes μ) (views : ∀ stackSet, field.get stackSet = view stackSet.scopes)
    (changes : ∀ stackSet, (field.set stackSet saved).scopes = change stackSet.scopes)
    {post : Unit → Machine μ κ → Prop} {scopes : Scopes μ} (found : machine.vm.scopes = scopes)
    (below : saved.v <:+ (view scopes).v)
    (holds : ∀ after, after.activations = machine.activations →
      after.vm.setting = { machine.vm.setting with scopes := change scopes } → post () after) :
    (restore field saved.protect saved.count : Exec μ κ Unit).Logs quiet seen post (fun _ => True)
      machine := by
  refine restore_logs field _ _ fun stackSet rest present truncated => holds _ rfl ?_
  rw [scopes_of present] at found
  have whole := restore_spec rfl (found ▸ below) (views stackSet ▸ truncated)
  change Setting.mk _ _ _ _ _ (field.set stackSet ⟨rest, saved.protect⟩).scopes = _
  rw [whole, changes stackSet, found]
  rfl

theorem restoreStacks_logs (saved : Stacks μ) {post : Unit → Machine μ κ → Prop}
    (below : saved.scopes.Below machine.vm.scopes)
    (holds : ∀ after, after.activations = machine.activations →
      after.vm.setting = { machine.vm.setting with scopes := saved.scopes } → post () after) :
    (restoreStacks saved).Logs quiet seen post (fun _ => True) machine := by
  unfold restoreStacks
  apply Proc.logs_bind
  refine restoreOperands_logs StackField.stack _ _ fun first heldFirst => ?_
  apply Proc.logs_bind
  refine restoreOperands_logs StackField.hashStack _ _ fun second heldSecond => ?_
  have held := heldFirst.trans heldSecond
  apply Proc.logs_bind
  refine restoreScope_logs StackField.contextStack saved.contextStack Scopes.contextStack
    (fun scopes => { scopes with contextStack := saved.contextStack }) (fun _ => rfl)
    (fun _ => rfl) held.scopes below.contextStack fun third sameThird contexts => ?_
  apply Proc.logs_bind
  refine restoreScope_logs StackField.blockParamStack saved.blockParamStack Scopes.blockParamStack
    (fun scopes => { scopes with blockParamStack := saved.blockParamStack }) (fun _ => rfl)
    (fun _ => rfl) (congrArg Setting.scopes contexts) below.blockParamStack
    fun fourth sameFourth params => ?_
  refine restoreScope_logs StackField.partialBlockStack saved.partialBlockStack
    Scopes.partialBlockStack
    (fun scopes => { scopes with partialBlockStack := saved.partialBlockStack }) (fun _ => rfl)
    (fun _ => rfl) (congrArg Setting.scopes params) below.partialBlockStack
    fun fifth sameFifth blocks => ?_
  refine holds fifth ?_ ?_
  · exact sameFifth.trans (sameFourth.trans (sameThird.trans held.activations))
  · rw [blocks, params, contexts, held.setting]
    rfl

/-- The body of a program runs from the setting it was entered with. -/
theorem begin_logs (offset : Nat) (module : Module) (activation : Activation μ)
    (data : Option (Value μ)) {entered : Machine μ κ} {stackSet : Stacks μ}
    (calls : Rec.Kept inv rec) (ready : inv.holds machine.vm.scopes machine.activations)
    (present : entered.vm.stackSet = some (saveStacks stackSet))
    (scopes : machine.vm.scopes = stackSet.scopes)
    (setting : { entered.vm.setting with scopes := machine.vm.scopes } = machine.vm.setting)
    (activations : entered.activations = activation :: machine.activations) :
    (executeBody env rec offset module activation.context data activation.blockParams).Logs
      Event.Uncaught (Event.Entered inv machine activation data)
      (fun _ => Begun env machine activation data) (fun _ => True) entered := by
  unfold executeBody
  apply Proc.logs_bind
  refine pushContext_logs activation.context fun again found => ?_
  cases present.symm.trans found
  apply Proc.logs_bind
  apply setData_logs
  apply Proc.logs_bind
  refine pushBlockParams_logs activation.blockParams rfl fun begun programs started => ?_
  have start : Begun env machine activation data begun := by
    refine ⟨?_, programs.trans activations⟩
    rw [started]
    unfold Setting.entered
    rw [← setting, scopes]
    rfl
  have holds : inv.holds begun.vm.scopes begun.activations := by
    rw [start.scopes, start.activations]
    exact inv.enters activation ready
  refine Proc.logs_mono (accept_keeps calls 0 _ begun holds) ?_ ?_ (fun _ _ => trivial)
  · exact fun event happened => start.entered happened
  · exact fun _ after held => start.held held

theorem leave_held (activation : Activation μ) (data : Option (Value μ)) {begun : Machine μ κ}
    {stackSet : Stacks μ} (scopes : machine.vm.scopes = stackSet.scopes)
    (start : Begun env machine activation data begun) :
    (leave machine.vm stackSet data).Logs quiet seen (fun _ => Held machine) (fun _ => True)
      begun := by
  unfold leave
  apply Proc.logs_bind
  have below : stackSet.scopes.Below begun.vm.scopes := by
    rw [start.scopes, scopes]
    exact Scopes.below_entered _ _ _ _
  refine restoreStacks_logs stackSet below fun left programs setting => ?_
  apply Proc.logs_bind
  apply Proc.logs_write
  apply Proc.logs_bind
  apply setData_logs
  apply Proc.logs_bind
  apply Proc.logs_write
  apply Proc.logs_bind
  apply Proc.logs_read
  apply Proc.logs_bind
  refine logs_nonnull fun buffer _ => ?_
  apply Proc.logs_bind
  apply Proc.logs_write
  refine Proc.logs_pure ⟨?_, ?_⟩
  · have inner : left.vm.data = data.getD machine.vm.data := by
      rw [show left.vm.data = left.vm.setting.data from rfl, setting, start.setting]
      rfl
    change Setting.mk ((data.map fun _ => machine.vm.data).getD left.vm.data)
      left.vm.setting.inIteration left.vm.setting.module left.vm.setting.flags
      left.vm.setting.registered left.vm.setting.scopes = _
    rw [inner, setting, start.setting, ← scopes]
    cases data <;> rfl
  · change left.activations.tail = _
    rw [programs, start.activations]
    rfl

/-- A program that is executed is entered in its own setting and left with the old one. -/
theorem executeProgramEx_entered (calls : Rec.Kept inv rec) (program : Int) (context : Value μ)
    (data blockParams : Option (Value μ))
    (ready : inv.holds machine.vm.scopes machine.activations) :
    (executeProgramEx env rec program context data blockParams).Logs Event.Uncaught
      (fun event => ∃ activation, activation.context = context ∧
        activation.blockParams = blockParams ∧ some activation.module = machine.vm.module ∧
        activation.program = program.toNat ∧ event.Entered inv machine activation data)
      (fun _ => Held machine) (fun _ => True) machine := by
  unfold executeProgramEx
  apply Proc.logs_ite
  · exact fun _ => Proc.logs_pure (.refl machine)
  intro _
  apply Proc.logs_bind
  apply Proc.logs_read
  apply Proc.logs_bind
  refine logs_nonnull fun module found => ?_
  apply Proc.logs_ite
  · exact fun _ => logs_raise _
  intro _
  apply Proc.logs_bind
  refine logs_nonnull fun entry _ => ?_
  apply Proc.logs_bind
  unfold newBuffer allocate
  apply Proc.logs_bind
  apply Proc.logs_bind
  apply Proc.logs_read
  apply Proc.logs_bind
  apply Proc.logs_write
  apply Proc.logs_pure
  apply Proc.logs_write
  apply Proc.logs_bind
  refine logs_nonnull fun stackSet present => ?_
  have scopes := scopes_of present
  apply Proc.logs_bind
  unfold enter
  apply Proc.logs_bind
  apply Proc.logs_write
  apply Proc.logs_write
  apply Proc.logs_bind
  let activation : Activation μ := ⟨module, program.toNat, context, blockParams, stackSet.count⟩
  have saved : machine.vm.stackSet.map saveStacks = some (saveStacks stackSet) :=
    congrArg (Option.map saveStacks) present
  refine Proc.logs_mono (begin_logs entry.opcodeOffset (env.module module) activation data calls
    ready saved scopes rfl rfl) ?_ ?_ (fun _ left => left)
  · exact fun event entered => ⟨activation, rfl, rfl, found.symm, rfl, entered⟩
  · exact fun _ begun start => leave_held activation data scopes start

theorem within_of_entered {event : Event μ κ} {activation : Activation μ}
    {data : Option (Value μ)} (entered : event.Entered inv machine activation data) :
    event.Within inv machine := by
  cases event with
  | opcode vm activations pc opcode =>
    have inside := Scopes.below_entered env activation.context activation.blockParams
      machine.vm.scopes
    obtain ⟨holds, ⟨programs, setting⟩ | ⟨⟨inner, other, present⟩, below, same⟩⟩ := entered
    · have scopes : vm.scopes = _ := congrArg Setting.scopes setting
      exact ⟨holds, ⟨[], activation, programs⟩, scopes ▸ inside,
        congrArg Setting.registered setting⟩
    · exact ⟨holds, ⟨inner ++ [other], activation, by simp [present]⟩, inside.trans below, same⟩
  | _ => trivial

theorem Kept.executeProgramEx (calls : Rec.Kept inv rec) (program : Int) (context : Value μ)
    (data blockParams : Option (Value μ)) :
    Kept inv false (Exec.executeProgramEx env rec program context data blockParams) := by
  intro machine ready
  refine Proc.logs_mono (executeProgramEx_entered calls program context data blockParams ready) ?_
    (fun _ _ held => held) (fun _ _ => nofun)
  rintro event ⟨activation, -, -, -, -, entered⟩
  exact within_of_entered entered

end Programs

/-- However deep calls are nested. -/
theorem level_kept (inv : Invariant env) (fuel : Nat) : Rec.Kept inv (level env fuel) := by
  induction fuel with
  | zero => exact ⟨fun _ _ _ _ => .exhaust, fun _ _ _ => .exhaust⟩
  | succ fuel ih => exact ⟨fun _ _ _ _ => .executeProgramEx ih _ _ _ _,
      fun _ _ _ => .valueCall ih _ _ _⟩

end Exec

end HandlebarsC
