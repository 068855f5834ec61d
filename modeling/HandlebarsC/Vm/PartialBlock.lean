import HandlebarsC.Vm.Iteration
import Mathlib.Logic.Relation

/-!
What `@partial-block` stands for while the body of a partial block is rendered: blocks are
found on a stack, where a body finds the block that was innermost when it was captured.
-/

namespace HandlebarsC

open Effect

namespace Stack

variable {μ : Type}

/-- Each block on the stack was captured at some height, and is still there. -/
def Captured (stack : Stack (PartialBlock μ)) : Prop :=
  ∀ height block, stack.getOffset height = some block →
    block.depth ≤ height ∧ stack.getOffset block.depth = some block

theorem getOffset_lt {stack : Stack α} {height : Nat} {value : α}
    (found : stack.getOffset height = some value) : height < stack.count := by
  obtain ⟨bound, -⟩ := List.getElem?_eq_some_iff.mp found
  rwa [List.length_reverse] at bound

/-- What is pushed leaves all below in place. -/
theorem getOffset_cons {v : List α} {top value : α} {height protect : Nat}
    (found : (⟨v, protect⟩ : Stack α).getOffset height = some value) :
    (⟨top :: v, protect⟩ : Stack α).getOffset height = some value := by
  obtain ⟨bound, -⟩ := List.getElem?_eq_some_iff.mp found
  unfold getOffset
  rw [List.reverse_cons, List.getElem?_append_left bound]
  exact found

theorem getOffset_top (v : List α) (top : α) (protect : Nat) :
    (⟨top :: v, protect⟩ : Stack α).getOffset v.length = some top := by
  simp [getOffset]

/-- A block that is opened is captured at its height, or one below is again. -/
theorem Captured.push {v : List (PartialBlock μ)} {protect : Nat} {block : PartialBlock μ}
    (captured : Captured ⟨v, protect⟩) (low : block.depth ≤ v.length)
    (place : (⟨block :: v, protect⟩ : Stack _).getOffset block.depth = some block) :
    Captured ⟨block :: v, protect⟩ := by
  intro height other found
  have bound := getOffset_lt found
  rcases Nat.lt_succ_iff_lt_or_eq.mp bound with below | rfl
  · have inside : height < v.reverse.length := by rwa [List.length_reverse]
    unfold getOffset at found
    rw [List.reverse_cons, List.getElem?_append_left inside] at found
    obtain ⟨lower, there⟩ := captured height other found
    exact ⟨lower, getOffset_cons there⟩
  · cases (getOffset_top v block protect).symm.trans found
    exact ⟨low, place⟩

end Stack

/-- On the stack of partial blocks are the captured ones, in every run. -/
def capturedBlocks (env : Env μ κ) : Invariant env where
  holds scopes _ := scopes.partialBlockStack.Captured
  enters _ captured := captured
  opens {scopes _} block depth captured := by
    refine captured.push (Nat.le_of_eq depth) ?_
    rw [depth]
    exact Stack.getOffset_top _ block _
  reopens {scopes _ height} block found captured := by
    obtain ⟨lower, there⟩ := captured height block found
    exact captured.push (Nat.le_trans lower (Nat.le_of_lt (Stack.getOffset_lt found)))
      (Stack.getOffset_cons there)

/-- The block that was innermost when another one was captured. -/
def outerBlock (stack : Stack (PartialBlock μ)) (block : PartialBlock μ) :
    Option (PartialBlock μ) :=
  if block.depth = 0 then none else stack.getOffset (block.depth - 1)

theorem outerBlock_depth {stack : Stack (PartialBlock μ)} (captured : stack.Captured)
    {block other : PartialBlock μ} (outer : outerBlock stack block = some other) :
    other.depth < block.depth := by
  unfold outerBlock at outer
  split at outer
  · cases outer
  · have := (captured _ other outer).1
    omega

namespace Exec

variable {μ κ : Type}

/-- `{{> @partial-block}}` finds just this. -/
def Finds (env : Env μ κ) (scopes : Scopes μ) (registered : Registered μ)
    (found : Option (Value μ)) : Prop :=
  ∀ machine : Machine μ κ, machine.vm.scopes = scopes → machine.vm.registered = registered →
    (findPartial env (some (bytes "@partial-block"))).wp (fun value _ => value = found)
      (fun _ => True) machine

/-- No partial is registered under the name. -/
def NotRegistered (env : Env μ κ) (partials : Value μ) : Prop :=
  ∀ machine : Machine μ κ,
    mapFind env.platform partials (bytes "@partial-block") machine = (.ok none machine, [])

theorem findPartial_top {env : Env μ κ} {machine : Machine μ κ}
    (lacks : NotRegistered env machine.vm.partials) :
    findPartial env (some (bytes "@partial-block")) machine =
      (do
        let stack ← stackOf StackField.partialBlockStack
        pure (stack.top.map PartialBlock.value)) machine := by
  unfold findPartial
  change (readVm Vm.partials >>= _) machine = _
  rw [Proc.bind_ran (readVm_ran _ _), Proc.bind_ran (lacks machine)]
  dsimp only
  rw [if_pos rfl]

end Exec

/-- While something runs, the blocks that were open stay open, under those that are opened
since; a program that is run directly finds none of these. -/
def Event.Above (machine : Machine μ κ) : Event μ κ → Prop
  | opcode vm activations _ _ =>
    (∃ since, vm.scopes.partialBlockStack.v = since ++ machine.vm.scopes.partialBlockStack.v ∧
      ((∃ body, activations = body :: machine.activations) → since = [])) ∧
    vm.registered = machine.vm.registered
  | _ => True

/-- The blocks that are open while an opcode is executed are captured ones. -/
def Event.InCaptured : Event μ κ → Prop
  | opcode vm _ _ _ => vm.scopes.partialBlockStack.Captured
  | _ => True

/-- The opcode is one of the program that was run directly. -/
def Event.Direct (machine : Machine μ κ) : Event μ κ → Prop
  | opcode _ activations _ _ => ∃ body, activations = body :: machine.activations
  | _ => False

/-- In the body of the block and in all it contains, `@partial-block` is the block around it,
for as long as no other block is opened. -/
def Event.Scoped (env : Env μ κ) (machine : Machine μ κ) (block : PartialBlock μ) :
    Event μ κ → Prop
  | opcode vm activations _ _ =>
    ∃ since, vm.scopes.partialBlockStack.v = since ++
        ((outerBlock machine.vm.scopes.partialBlockStack block).toList ++
          machine.vm.scopes.partialBlockStack.v) ∧
      ((∃ body, activations = body :: machine.activations) → since = []) ∧
      (since = [] → Exec.Finds env vm.scopes vm.registered
        ((outerBlock machine.vm.scopes.partialBlockStack block).map PartialBlock.value))
  | _ => True

theorem Event.Above.same {event : Event μ κ} {before after : Machine μ κ}
    (above : event.Above after) (scopes : after.vm.scopes = before.vm.scopes)
    (registered : after.vm.registered = before.vm.registered)
    (activations : after.activations = before.activations) : event.Above before := by
  cases event with
  | opcode vm programs pc opcode =>
    obtain ⟨⟨since, blocks, direct⟩, same⟩ := above
    rw [scopes] at blocks
    rw [activations] at direct
    exact ⟨⟨since, blocks, direct⟩, same.trans registered⟩
  | _ => trivial

namespace Exec

variable {μ κ : Type} {env : Env μ κ}

/-- What is promised of the body of a partial block: `@partial-block` is the block around
it, following it one never comes back, and the blocks that were open are so again. -/
structure BodyScoped (env : Env μ κ) (machine : Machine μ κ) (block : PartialBlock μ)
    (run : Outcome (Machine μ κ) (Value μ) × List (Event μ κ)) : Prop where
  around : ∀ event ∈ run.2, event.Scoped env machine block
  apart : ∀ other, Relation.TransGen
    (fun inner outer => outerBlock machine.vm.scopes.partialBlockStack inner = some outer)
    block other → other ≠ block
  leaves : ∀ result after, run.1 = .ok result after →
    after.vm.scopes.partialBlockStack = machine.vm.scopes.partialBlockStack

theorem finds_top (env : Env μ κ) (scopes : Scopes μ) {registered : Registered μ}
    (lacks : NotRegistered env registered.partials) :
    Finds env scopes registered (scopes.partialBlockStack.top.map PartialBlock.value) := by
  rintro machine rfl rfl
  unfold Proc.wp
  rw [findPartial_top lacks]
  apply Proc.wp_bind.mpr
  cases present : machine.vm.stackSet with
  | none =>
    unfold Proc.wp stackOf
    rw [Proc.bind_ran (readVm_ran _ _), present]
    trivial
  | some stackSet =>
    unfold Proc.wp
    rw [stackOf_ran _ present, scopes_of present]
    rfl

theorem above_of_entered {inv : Invariant env} {machine : Machine μ κ} {activation : Activation μ}
    {data : Option (Value μ)} {event : Event μ κ}
    (entered : event.Entered inv machine activation data) : event.Above machine := by
  cases event with
  | opcode vm activations pc opcode =>
    obtain ⟨-, ⟨programs, setting⟩ | ⟨⟨inner, other, present⟩, below, same⟩⟩ := entered
    · have blocks := congrArg (fun setting => setting.scopes.partialBlockStack.v) setting
      exact ⟨⟨[], blocks, fun _ => rfl⟩, congrArg Setting.registered setting⟩
    · obtain ⟨since, blocks⟩ := below.partialBlockStack
      refine ⟨⟨since, blocks.symm, ?_⟩, same⟩
      rintro ⟨body, direct⟩
      have lengths := congrArg List.length (present.symm.trans direct)
      simp only [List.length_append, List.length_cons] at lengths
      omega
  | _ => trivial

theorem program_above (env : Env μ κ) (fuel : Nat) (program : Int) (context : Value μ)
    (data blockParams : Option (Value μ)) (machine : Machine μ κ) :
    ((level env fuel).executeProgramEx program context data blockParams).Logs Event.Uncaught
      (fun event => event.Above machine) (fun _ => Held machine) (fun _ => True) machine := by
  cases fuel with
  | zero => exact Proc.logs_exhaust trivial
  | succ fuel =>
    have calls := level_kept (.any env) fuel
    refine Proc.logs_mono
      (executeProgramEx_entered calls program context data blockParams trivial) ?_
      (fun _ _ held => held) (fun _ left => left)
    rintro event ⟨activation, -, -, -, -, entered⟩
    exact above_of_entered entered

theorem partialBlockInput_logs (argv : List (Value μ)) {machine : Machine μ κ}
    {quiet seen : Event μ κ → Prop} {post : Value μ → Machine μ κ → Prop}
    (holds : ∀ input, post input machine) :
    (partialBlockInput argv : Exec μ κ _).Logs quiet seen post (fun _ => True) machine := by
  cases argv with
  | nil =>
    apply Proc.logs_bind
    exact stackOf_logs _ fun _ _ => logs_nonnull fun input _ => holds input
  | cons first rest => exact Proc.logs_pure (holds first)

theorem executePartialBlock_above (env : Env μ κ) (fuel : Nat) (module : μ) (program : Int)
    (argv : List (Value μ)) (machine : Machine μ κ) :
    (executePartialBlock env (level env fuel) module program argv).Logs Event.Uncaught
      (fun event => event.Above machine) (fun _ => Held machine) (fun _ => True) machine := by
  unfold executePartialBlock
  apply Proc.logs_bind
  refine partialBlockInput_logs argv fun input => ?_
  apply Proc.logs_bind
  refine stackOf_logs _ fun stackSet _ => ?_
  apply Proc.logs_bind
  apply Proc.logs_read
  apply Proc.logs_ite
  · intro _
    apply Proc.logs_bind
    refine Proc.logs_mono (program_above env fuel _ _ _ _ machine) (fun _ logged => logged) ?_
      (fun _ left => left)
    exact fun _ _ held => Proc.logs_pure held
  · intro _
    apply Proc.logs_bind
    refine Proc.logs_mono (Kept.executeEx_logs module _ program _ _ fun between switched => ?_)
      (fun _ logged => logged) (fun _ _ held => Proc.logs_pure held) (fun _ left => left)
    refine Proc.logs_mono (program_above env fuel _ _ _ _ between) ?_ (fun _ _ held => held)
      (fun _ left => left)
    exact fun event above => above.same switched.scopes
      (congrArg Setting.registered switched.setting) switched.activations

theorem finds_unique {vm : Vm μ κ} {found : Option (Value μ)}
    (lacks : NotRegistered env vm.registered.partials)
    (finds : Finds env vm.scopes vm.registered found) :
    found = vm.scopes.partialBlockStack.top.map PartialBlock.value := by
  let machine : Machine μ κ := ⟨{ vm with stackSet := some (vm.stackSet.getD .empty) }, []⟩
  have ended := finds machine rfl rfl
  unfold Proc.wp at ended
  have ran : findPartial env (some (bytes "@partial-block")) machine =
      (.ok (vm.scopes.partialBlockStack.top.map PartialBlock.value) machine, []) := by
    rw [findPartial_top lacks, Proc.bind_ran (stackOf_ran _ rfl)]
    rfl
  rw [ran] at ended
  exact ended.symm

/-- What happens above the block around this one happens in the body of this one. -/
theorem scoped_of_above {machine opened : Machine μ κ} {block outer : PartialBlock μ}
    {event : Event μ κ} (around : outerBlock machine.vm.scopes.partialBlockStack block = some outer)
    (lacks : NotRegistered env machine.vm.partials)
    (activations : opened.activations = machine.activations)
    (setting : opened.vm.setting =
      { machine.vm.setting with scopes := machine.vm.scopes.opened outer })
    (above : event.Above opened) : event.Scoped env machine block := by
  cases event with
  | opcode vm programs pc opcode =>
    obtain ⟨⟨since, blocks, direct⟩, registered⟩ := above
    have stack : opened.vm.scopes.partialBlockStack.v =
        outer :: machine.vm.scopes.partialBlockStack.v :=
      congrArg (fun setting => setting.scopes.partialBlockStack.v) setting
    rw [stack] at blocks
    rw [activations] at direct
    have same : vm.registered = machine.vm.registered :=
      registered.trans (congrArg Setting.registered setting)
    refine ⟨since, by rw [around]; exact blocks, direct, ?_⟩
    rintro rfl
    have finds : Finds env vm.scopes vm.registered _ := finds_top env vm.scopes (same ▸ lacks)
    rw [around]
    unfold Stack.top at finds
    rw [blocks] at finds
    exact finds
  | _ => trivial

/-- The body of a block with one around it runs in the scope of that one. -/
theorem body_scoped (fuel : Nat) {block outer : PartialBlock μ} {machine : Machine μ κ}
    (around : outerBlock machine.vm.scopes.partialBlockStack block = some outer)
    (lacks : NotRegistered env machine.vm.partials) (argv : List (Value μ)) (options : Options μ) :
    ((level env (fuel + 1)).valueCall block.value argv options).Logs Event.Uncaught
      (fun event => event.Scoped env machine block) (fun _ => Held machine) (fun _ => True)
      machine := by
  have positive : block.depth ≠ 0 := by
    intro zero
    simp [outerBlock, zero] at around
  change (invokePartialBlockClosure env (level env fuel) block.module block.program block.depth
    argv).Logs _ _ _ _ machine
  unfold invokePartialBlockClosure
  apply Proc.logs_bind
  refine Proc.logs_emit fun _ => ⟨trivial, ?_⟩
  rw [if_pos (by omega)]
  apply Proc.logs_bind
  refine stackOf_logs _ fun stackSet present => ?_
  apply Proc.logs_bind
  refine logs_nonnull fun found place => ?_
  have same : found = outer := by
    unfold outerBlock at around
    rw [if_neg positive, scopes_of present] at around
    have height : ((block.depth : Int) - 1).toNat = block.depth - 1 := by omega
    rw [height] at place
    exact Option.some.inj (place.symm.trans around)
  subst same
  refine Kept.withPartialBlock_logs found (fun _ _ => trivial) fun opened activations setting => ?_
  refine Proc.logs_mono (executePartialBlock_above env fuel _ _ argv opened) ?_
    (fun _ _ held => held) (fun _ left => left)
  exact fun event above => scoped_of_above around lacks activations setting above

/-- The body of a block that was captured when none was open runs in the scope of the
blocks that are open when it is called. -/
theorem body_unscoped (fuel : Nat) {block : PartialBlock μ} {machine : Machine μ κ}
    (bottom : block.depth = 0) (argv : List (Value μ)) (options : Options μ) :
    ((level env (fuel + 1)).valueCall block.value argv options).Logs Event.Uncaught
      (fun event => event.Above machine) (fun _ => Held machine) (fun _ => True) machine := by
  change (invokePartialBlockClosure env (level env fuel) block.module block.program block.depth
    argv).Logs _ _ _ _ machine
  unfold invokePartialBlockClosure
  apply Proc.logs_bind
  refine Proc.logs_emit fun _ => ⟨trivial, ?_⟩
  rw [if_neg (by omega)]
  exact executePartialBlock_above env fuel _ _ argv machine

theorem outer_apart {stack : Stack (PartialBlock μ)} (captured : stack.Captured)
    {block other : PartialBlock μ} (follows : Relation.TransGen
      (fun inner outer => outerBlock stack inner = some outer) block other) : other ≠ block := by
  have lower : other.depth < block.depth := by
    induction follows with
    | single outer => exact outerBlock_depth captured outer
    | tail _ outer ih => exact Nat.lt_trans (outerBlock_depth captured outer) ih
  rintro rfl
  exact absurd lower (Nat.lt_irrefl _)

/-- A block on the stack that was not captured first has one around it. -/
theorem exists_outer {stack : Stack (PartialBlock μ)} (captured : stack.Captured)
    {block : PartialBlock μ} (member : block ∈ stack.v) (positive : 0 < block.depth) :
    ∃ outer, outerBlock stack block = some outer := by
  obtain ⟨height, found⟩ := List.getElem?_of_mem (List.mem_reverse.mpr member)
  have bound := Stack.getOffset_lt (captured height block found).2
  have inside : block.depth - 1 < stack.v.reverse.length := by
    rw [List.length_reverse]
    exact Nat.lt_of_le_of_lt (Nat.sub_le _ _) bound
  refine ⟨stack.v.reverse[block.depth - 1], ?_⟩
  unfold outerBlock
  rw [if_neg (Nat.pos_iff_ne_zero.mp positive)]
  exact List.getElem?_eq_getElem inside

/-- An opcode of the body of a block that was captured first finds another block, or the
same one. -/
theorem not_scoped {machine : Machine μ κ} {block : PartialBlock μ} {event : Event μ κ}
    (member : block ∈ machine.vm.scopes.partialBlockStack.v) (bottom : block.depth = 0)
    (lacks : NotRegistered env machine.vm.partials) (above : event.Above machine)
    (direct : event.Direct machine) : ¬event.Scoped env machine block := by
  cases event with
  | opcode vm activations pc opcode =>
    rintro ⟨since, blocks, directly, finds⟩
    obtain ⟨-, registered⟩ := above
    have none : outerBlock machine.vm.scopes.partialBlockStack block = none := by
      simp [outerBlock, bottom]
    rw [none] at blocks finds
    have nothing := finds_unique (registered ▸ lacks) (finds (directly direct))
    rw [directly direct] at blocks
    unfold Stack.top at nothing
    rw [blocks] at nothing
    cases content : machine.vm.scopes.partialBlockStack.v with
    | nil =>
      rw [content] at member
      cases member
    | cons top rest =>
      rw [content] at nothing
      cases nothing
  | _ => exact direct.elim

/-- In a run in which no error is caught, the blocks that are open are always captured ones.
While the body of one of them is rendered, `@partial-block` is the block that was innermost
when it was captured, and afterwards the same blocks are open as before, exactly if any was
open at the capture. -/
theorem partial_block_scoped_iff (env : Env μ κ) (fuel : Nat) (machine : Machine μ κ)
    (captured : machine.vm.scopes.partialBlockStack.Captured) :
    (∀ module context,
      (∀ event ∈ (execute env (level env fuel) module context machine).2, event.Uncaught) →
        ∀ event ∈ (execute env (level env fuel) module context machine).2, event.InCaptured) ∧
    ∀ block ∈ machine.vm.scopes.partialBlockStack.v, ∀ argv options,
      NotRegistered env machine.vm.partials →
      (∀ event ∈ ((level env fuel).valueCall block.value argv options machine).2,
        event.Uncaught) →
      (∃ event ∈ ((level env fuel).valueCall block.value argv options machine).2,
        event.Direct machine) →
      (BodyScoped env machine block ((level env fuel).valueCall block.value argv options machine) ↔
        0 < block.depth) := by
  constructor
  · intro module context uncaught event member
    have kept : Kept (capturedBlocks env) false (execute env (level env fuel) module context) :=
      .execute (level_kept _ fuel) module context
    have within := (kept machine captured uncaught).1 event member
    cases event with
    | opcode vm activations pc opcode => exact within.1
    | _ => trivial
  · intro block member argv options lacks uncaught ⟨event, happened, direct⟩
    cases fuel with
    | zero => exact (List.not_mem_nil happened).elim
    | succ fuel =>
      constructor
      · intro right
        by_contra bottom
        have above := (body_unscoped fuel (Nat.eq_zero_of_not_pos bottom) argv options uncaught).1
        exact not_scoped member (Nat.eq_zero_of_not_pos bottom) lacks (above event happened) direct
          (right.around event happened)
      · intro positive
        obtain ⟨outer, around⟩ := exists_outer captured member positive
        obtain ⟨within, ended⟩ := body_scoped fuel around lacks argv options uncaught
        refine ⟨within, fun other follows => outer_apart captured follows, ?_⟩
        intro result after returned
        rw [returned] at ended
        exact congrArg Scopes.partialBlockStack ended.scopes

section Blocks

/-- `{{> name}}`, or with a body `{{#> name}}`. -/
def partialNamed (name : Str) : Param := .name (.path ⟨LocInfo.zero, some name, [name], 0, false, false, false⟩)

/-- `{{#> p}}{{> @partial-block}}{{/p}}` -/
def blockTemplate : ProgramNode :=
  .mk LocInfo.zero []
    [.partialBlock LocInfo.zero (partialNamed (bytes "p")) [] none (some (.mk LocInfo.zero []
      [.partialCall LocInfo.zero (partialNamed (bytes "@partial-block")) [] none none] none none))]
    none none

def blockModule : Option Module :=
  (Compiler.compileEx pairEnv.platform 0 [] (some blockTemplate)).bind fun compiler =>
    Serializer.programSerialize 0 0 compiler.program

def blockEnv : Env Unit Unit := { pairEnv with module := fun _ => blockModule.getD pushingModule }

/-- The body in the template, captured when so many blocks were open. -/
def bodyBlock (depth : Nat) : PartialBlock Unit := ⟨2 * depth, 2 * depth + 1, (), 1, depth⟩

def blockMachine (blocks : List (PartialBlock Unit)) : Machine Unit Unit :=
  let machine := pairMachine .null 10 (some ⟨9, .null⟩)
  { machine with vm := { machine.vm with
      partials := .map 8 []
      stackSet := some { Stacks.empty with partialBlockStack := ⟨blocks, 0⟩ } } }

def blockOptions : Options Unit := ⟨none, none, .null, none, -1, -1⟩

/-- Nothing is caught, and the program that is run directly has an opcode. -/
def runsBody (log : List (Event Unit Unit)) : Bool :=
  (log.all fun event => match event with
    | .caught => false
    | _ => true) &&
  log.any fun event => match event with
    | .opcode _ activations _ _ => activations.length == 1
    | _ => false

theorem runsBody_spec (blocks : List (PartialBlock Unit)) {log : List (Event Unit Unit)}
    (runs : runsBody log = true) : (∀ event ∈ log, event.Uncaught) ∧
      ∃ event ∈ log, event.Direct (blockMachine blocks) := by
  obtain ⟨all, any⟩ := Bool.and_eq_true_iff.mp runs
  constructor
  · intro event member
    have quiet := List.all_eq_true.mp all event member
    cases event with
    | caught => cases quiet
    | _ => trivial
  · obtain ⟨event, member, direct⟩ := List.any_eq_true.mp any
    refine ⟨event, member, ?_⟩
    cases event with
    | opcode vm activations pc opcode =>
      obtain ⟨body, only⟩ := List.length_eq_one_iff.mp (beq_iff_eq.mp direct)
      exact ⟨body, only⟩
    | _ => cases direct

theorem captured_two : Stack.Captured ⟨[bodyBlock 1, bodyBlock 0], 0⟩ := by
  have first : Stack.Captured ⟨[bodyBlock 0], 0⟩ :=
    Stack.Captured.push (fun _ _ found => by cases found) (Nat.le_refl 0) rfl
  exact first.push (Nat.le_refl 1) rfl

/-- The body of the second of two nested partial blocks. -/
theorem partial_block_scoped_nested : BodyScoped blockEnv
    (blockMachine [bodyBlock 1, bodyBlock 0]) (bodyBlock 1)
    ((level blockEnv 2).valueCall (bodyBlock 1).value [.null] blockOptions
      (blockMachine [bodyBlock 1, bodyBlock 0])) := by
  have runs : runsBody ((level blockEnv 2).valueCall (bodyBlock 1).value [.null] blockOptions
      (blockMachine [bodyBlock 1, bodyBlock 0])).2 = true := by
    decide +kernel
  obtain ⟨uncaught, direct⟩ := runsBody_spec [bodyBlock 1, bodyBlock 0] runs
  exact ((partial_block_scoped_iff blockEnv 2 (blockMachine [bodyBlock 1, bodyBlock 0])
    captured_two).2 (bodyBlock 1) List.mem_cons_self [.null] blockOptions (fun _ => rfl) uncaught
    direct).mpr Nat.one_pos

/-- In `{{#> p}}{{> @partial-block}}{{/p}}` the body calls itself. -/
theorem partial_block_reentered : ¬BodyScoped blockEnv (blockMachine [bodyBlock 0]) (bodyBlock 0)
    ((level blockEnv 2).valueCall (bodyBlock 0).value [.null] blockOptions
      (blockMachine [bodyBlock 0])) := by
  have runs : runsBody ((level blockEnv 2).valueCall (bodyBlock 0).value [.null] blockOptions
      (blockMachine [bodyBlock 0])).2 = true := by
    decide +kernel
  obtain ⟨uncaught, event, happened, direct⟩ :=
    runsBody_spec [bodyBlock 0] runs
  have above := (body_unscoped 1 rfl [.null] blockOptions uncaught).1 event happened
  intro right
  exact not_scoped List.mem_cons_self rfl (fun _ => rfl) above direct (right.around event happened)

end Blocks

end Exec

end HandlebarsC
