import HandlebarsC.Compiler.Correct
import HandlebarsC.Render.Statements
import HandlebarsC.Vm.Execute

/-!
A whole template: it is compiled, serialized into a module and executed by the VM, and the result
is the text that its syntax tree means.
-/

namespace HandlebarsC

namespace Program

theorem at?_concat {program node : Program} {path : Path} {index : Nat}
    (found : program.at? path = some node) :
    program.at? (path ++ [index]) = node.children[index]? := by
  induction path generalizing program with
  | nil =>
    cases found
    rw [List.nil_append, at?_cons]
    exact Option.bind_fun_some _
  | cons first rest ih =>
    rw [at?_cons] at found
    obtain ⟨child, present, below⟩ := Option.bind_eq_some_iff.mp found
    rw [List.cons_append, at?_cons, present]
    exact ih below

end Program

open Effect Compiler Serializer

namespace Render

section Modules

/-- What lies where a serialized program was placed -/
theorem Placed.hosted {module : Module} {program : Program} (placed : Placed module program 0 1 0)
    (counted : module.programCount = program.descendants + 1) (node : Program) :
    ∀ path, program.at? path = some node → Hosted module node (program.guidAt 0 1 path) := by
  induction node using Program.treeInduction with
  | node node ih =>
    intro path found
    have code : Exec.codeFrom module (program.offsetAt 0 path) =
        node.code (program.tableAt 0 1 path node) ++
          (Exec.codeFrom module (program.offsetAt 0 path)).drop (node.opcodes.length + 1) := by
      rw [← placed.code path node found, Module.slice, Exec.codeFrom, List.map_take,
        List.take_append_drop]
    refine .mk (program.tableAt 0 1 path node) ?_ (placed.entry path node found) code ?_ ?_
    · rw [counted]
      exact (guidAt_exhaustive program _).mpr ⟨path, node, found, rfl⟩
    · rw [Program.tableAt, List.length_map, List.length_range]
    · intro index child guid present number
      have inside := (List.getElem?_eq_some_iff.mp present).1
      have same : program.guidAt 0 1 (path ++ [index]) = guid := by
        simpa [Program.tableAt, inside] using number
      rw [← same]
      exact ih child (List.mem_of_getElem? present) _ ((Program.at?_concat found).trans present)

/-- A serialized program is in its module under the number 0. -/
theorem programSerialize_hosted (now : Int) (addr : Nat) (program : Program)
    (bounded : program.PushProgramsBelow) :
    ∃ module, programSerialize now addr program = some module ∧ module.flags = program.flags ∧
      Hosted module program 0 := by
  have counted : Serializer.Counted (serializeProgramShallow (allocate now addr program)).2 := by
    rw [allocate_eq]
    exact ⟨rfl, rfl⟩
  have named : Serializer.Named (serializeProgramShallow (allocate now addr program)).2 0 := by
    rw [allocate_eq]
    exact ⟨⟨0, 0, 0⟩, rfl, rfl⟩
  obtain ⟨after, success, grown, placed⟩ := serializeProgram2_spec program _ 0 counted named bounded
  rw [allocate_eq] at success grown placed
  refine ⟨after, ?_, ?_, ?_⟩
  · rw [programSerialize, allocate_eq]
    exact success
  · rw [grown.frame]
    rfl
  · refine Placed.hosted placed ?_ program [] rfl
    rw [grown.programCount, Nat.add_comm]
    rfl

/-- Modules that the VM cannot tell apart but by their addresses -/
structure SameCode (left right : Module) : Prop where
  flags : right.flags = left.flags
  programCount : right.programCount = left.programCount
  programs : right.programs = left.programs
  opcodes : right.opcodes.map ModuleOpcode.erase = left.opcodes.map ModuleOpcode.erase

theorem SameCode.refl (module : Module) : SameCode module module := ⟨rfl, rfl, rfl, rfl⟩

theorem SameCode.codeFrom {left right : Module} (same : SameCode left right) (offset : Nat) :
    Exec.codeFrom right offset = Exec.codeFrom left offset := by
  unfold Exec.codeFrom
  rw [List.map_drop, List.map_drop, same.opcodes]

theorem Hosted.same {left right : Module} (same : SameCode left right) {program : Program}
    {number : Nat} (hosted : Hosted left program number) : Hosted right program number := by
  induction hosted with
  | mk table counted found placed enough _ ih =>
    refine .mk table ?_ ?_ ((same.codeFrom _).trans placed) enough ih
    · rw [same.programCount]
      exact counted
    · rw [same.programs]
      exact found

end Modules

section Running

variable {μ κ : Type}

/-- A VM that is not running, without registered helpers and with data of values that the library
has built; the maps of contexts are at owned addresses. -/
structure Ready (owned : Nat → Prop) (entries : StrMap (Value μ)) (vm : Vm μ κ) : Prop where
  jmp : vm.jmp = false
  stackSet : vm.stackSet = none
  helpers : ∃ addr, vm.helpers = .map addr []
  logFunc : vm.logFunc = none
  lastHelper : vm.lastHelper = none
  iterating : vm.inIteration = []
  data : DataIs owned vm.data entries
  dataInert : ∀ entry ∈ entries, entry.2.Inert owned
  below : ∀ addr, owned addr → addr < vm.alloc

/-- How a run that is to give a text ends: with the text and a VM as before, with no text and the
error in the VM, or with the process. -/
def Renders (owned : Nat → Prop) (entries : StrMap (Value μ)) (flags : Flags) (result : Meaning Str)
    (outcome : Outcome (Machine μ κ) (Option Str)) : Prop :=
  match result with
  | .ok text => ∃ after, outcome = .ok (some text) after ∧ Ready owned entries after.vm ∧
      after.vm.flags = flags
  | .error (.error error) => ∃ after, outcome = .ok none after ∧ after.vm.error = some error
  | .error .crash => ∃ after, outcome = .aborted after

/-- The options and flags a template is rendered with -/
def modeOf (platform : Platform) (flags : Flags) (knownHelpers : List Str) (vmFlags : Flags) : Mode :=
  ⟨platform, flags &&& Flag.all, knownHelpers, vmFlags ||| (flags &&& Flag.all)⟩

/-- The stage of a template whose module has these flags -/
def Ready.stage {owned : Nat → Prop} {entries : StrMap (Value μ)} {vm : Vm μ κ}
    (ready : Ready owned entries vm) (env : Env μ κ) (module : μ) (flags : Flags)
    (knownHelpers : List Str) : Stage μ κ where
  env := env
  mode := modeOf env.platform flags knownHelpers vm.flags
  module := module
  owned := owned
  limit := vm.alloc
  platform := rfl
  below := ready.below

/-- The scope around a template -/
def outermost (data : StrMap (Value μ)) : Scope μ := ⟨[], data, [], []⟩

variable {owned : Nat → Prop} {context : Value μ} {entries : StrMap (Value μ)}
  {machine : Machine μ κ} {env : Env μ κ} {stored : μ} {flags : Flags} {knownHelpers : List Str}
  {node : ProgramNode} {calls fuel : Nat}

/-- A VM between programs is ready once it is reset. -/
theorem Rests.ready {stage : Stage μ κ} {after : Machine μ κ}
    (idle : Ready stage.owned entries machine.vm) (rests : Rests stage (outermost entries) after) :
    Ready stage.owned entries (Exec.resetVm machine.vm after.vm) where
  jmp := idle.jmp
  stackSet := by
    change (if machine.vm.stackSet.isNone then none else after.vm.stackSet) = none
    rw [idle.stackSet]
    rfl
  helpers := rests.helpers
  logFunc := rests.logFunc
  lastHelper := rests.lastHelper
  iterating := rests.iterating
  data := rests.data
  dataInert := idle.dataInert
  below := fun addr own => (stage.below addr own).trans_le rests.alloc

/-- An error that the VM has thrown ends in no text. -/
theorem Proc.Does.caught {body : Exec μ κ (Option Str)} {result : Meaning Str}
    (does : Does body result (fun text returned after => returned = some text ∧
      Ready owned entries (Exec.resetVm machine.vm after.vm)) machine)
    (idle : machine.vm.jmp = false) :
    Renders owned entries machine.vm.flags result ((Exec.catchErrors machine body >>= fun buffer => do
      Exec.writeVm (Exec.resetVm machine.vm)
      pure buffer) machine).1 := by
  unfold Exec.catchErrors
  rw [idle, if_neg Bool.false_ne_true, Proc.bind_outcome]
  unfold Does Proc.Does at does
  unfold Proc.catching
  rcases ran : body machine with ⟨outcome, log⟩
  rw [ran] at does
  cases result with
  | ok text =>
    cases outcome with
    | ok returned after =>
      obtain ⟨rfl, ready⟩ := does
      exact ⟨_, rfl, ready, rfl⟩
    | thrown after | aborted after | exhausted after => exact does.elim
  | error failure =>
    cases outcome with
    | ok returned after | exhausted after => exact does.elim
    | thrown after =>
      obtain ⟨error, rfl, thrown⟩ := does
      exact ⟨_, rfl, thrown⟩
    | aborted after =>
      cases does
      exact ⟨_, rfl⟩

/-- The part of a run that errors jump out of -/
theorem executeModule_does {body : Body μ} {pair : BlockParamPair}
    (ready : Ready owned entries machine.vm) (inert : context.Inert owned) (enough : calls < fuel)
    (moduleFlags : (env.module stored).flags = flags &&& Flag.all)
    (program : HasProgram (env.module stored) (fun code => ∃ _ : List Nat, 0 < stackSize ∧
      Writes (ready.stage env stored flags knownHelpers) [pair] calls body code) 0) :
    Does (Exec.executeModule env (Exec.level env fuel) stored context 0 none none)
      (body ⟨[context], entries, [], []⟩) (fun text returned after => returned = some text ∧
        Ready owned entries (Exec.resetVm machine.vm after.vm)) machine := by
  obtain ⟨entry, code, rest, counted, found, placed, running, _, -, writes⟩ := program
  obtain ⟨fuel, rfl⟩ : ∃ less, fuel = less + 1 := ⟨fuel - 1, by omega⟩
  have rests : Rests (ready.stage env stored flags knownHelpers) (outermost entries)
      { machine with vm := { machine.vm with
        jmp := true
        stackSet := some (machine.vm.stackSet.getD .empty)
        alloc := machine.vm.freshAddr + 1
        lastContext := some (machine.vm.lastContext.getD ⟨machine.vm.freshAddr, .null⟩)
        module := some stored
        flags := machine.vm.flags ||| (env.module stored).flags } } := by
    refine ⟨rfl, congrArg (machine.vm.flags ||| ·) moduleFlags, rfl, ready.helpers, ready.logFunc,
      ready.lastHelper, ⟨0, rfl⟩, ready.data, ready.iterating, rfl, ?_, .empty, ?_, ?_⟩
    · exact (Nat.le_max_left _ _).trans (Nat.le_succ _)
    · change some (machine.vm.stackSet.getD .empty) = _
      rw [ready.stackSet]
      rfl
    · exact ⟨rfl, rfl, rfl, le_rfl, .nil, le_rfl, rfl⟩
  have outside : (outermost entries).Inert owned :=
    ⟨⟨by simp [outermost], ready.dataInert, by simp [outermost]⟩, by simp [outermost]⟩
  unfold Exec.executeModule
  refine Proc.does_ran rfl (Proc.does_ran rfl (Proc.does_ran rfl ?_))
  rw [← bind_pure (body _)]
  refine Proc.does_bind (program_does [] pair counted found placed running (by decide)
    (fun scope inert fits => writes fuel scope [] (by omega) inert fits) rests outside
    ⟨le_rfl, le_rfl⟩ inert .none .none) ?_
  rintro text _ after - ⟨rfl, -, rests⟩
  exact ⟨rfl, rests.ready ready⟩

theorem inside_start (mode : Mode) (options : mode.compileFlags = flags &&& Flag.all) :
    Inside mode [] [] (start flags mode.knownHelpers) :=
  ⟨options.symm, rfl, rfl, rfl, rfl, rfl⟩

/-- A visit that completes is a run without an error. -/
theorem acceptNode_runs {platform : Platform}
    (completes : visitNode platform (.start flags knownHelpers) node = .completes) :
    ∃ compiler log, acceptNode platform node (start flags knownHelpers) = (.ok () compiler, log) ∧
      compileEx platform flags knownHelpers (some node) = some compiler ∧
      compiler.flags = flags &&& Flag.all := by
  have ended : Ends _ (acceptNode platform node) _ :=
    follows_acceptNode _ node _ (start_of flags knownHelpers)
  rw [completes] at ended
  obtain ⟨_, compiler, ran, restored⟩ := ended
  refine ⟨compiler, _, Prod.ext ran rfl, ?_, restored.flags⟩
  unfold compileEx
  dsimp only
  rw [ran]

/-- Whatever the compiler visits has a module. -/
theorem exists_module {platform : Platform} (now : Int) (addr : Nat)
    (completes : visitNode platform (.start flags knownHelpers) node = .completes) :
    ∃ compiler module, compileEx platform flags knownHelpers (some node) = some compiler ∧
      programSerialize now addr compiler.program = some module := by
  obtain ⟨compiler, log, -, compiled, -⟩ := acceptNode_runs completes
  have bounded := compileEx_pushProgramsBelow platform flags knownHelpers (some node) compiled
  obtain ⟨module, serialized, -⟩ := programSerialize_hosted now addr _ bounded
  exact ⟨compiler, module, compiled, serialized⟩

/-- The run of the compiler leaves no error, and its program writes what the tree means. -/
theorem acceptNode_emits {compiler : Compiler} (stage : Stage μ κ)
    (options : stage.mode.compileFlags = flags &&& Flag.all) (covered : nodeCovered node = true)
    (ran : acceptNode stage.mode.platform node (start flags stage.mode.knownHelpers) =
      (.ok () compiler, log)) :
    compiler.error = none ∧ ∃ pair code, Appended (stage.env.module stage.module)
      (start flags stage.mode.knownHelpers) compiler (fun _ code => 0 < stackSize ∧
        Writes stage [pair] (nodeCalls node) (nodeText stage.mode [] node) code) code := by
  obtain ⟨pair, emits⟩ := @emits_acceptNode _ _ stage node [] [] covered
  obtain ⟨inside, code, appended⟩ := emits _ _ compiler log (inside_start _ options) ran
  exact ⟨inside.error, pair, code, appended⟩

/-- A template in a module: neither partials nor decorators are in its tree, the compiler visits
all of it, and the module says what the serializer has written for the program. -/
structure Template (env : Env μ κ) (stored : μ) (flags : Flags) (knownHelpers : List Str)
    (node : ProgramNode) : Prop where
  completes : visitNode env.platform (.start flags knownHelpers) node = .completes
  covered : nodeCovered node = true
  module : ∃ compiler now addr module,
    compileEx env.platform flags knownHelpers (some node) = some compiler ∧
      programSerialize now addr compiler.program = some module ∧ SameCode module (env.module stored)

/-- Executing the module of a template gives the text that the template means. -/
theorem Template.renders (template : Template env stored flags knownHelpers node)
    (ready : Ready owned entries machine.vm) (inert : context.Inert owned)
    (enough : nodeCalls node < fuel) :
    Renders owned entries machine.vm.flags
      (render (modeOf env.platform flags knownHelpers machine.vm.flags) node context entries)
      (Exec.execute env (Exec.level env fuel) stored context machine).1 := by
  obtain ⟨completes, covered, compiler, now, addr, module, compiled, serialized, same⟩ := template
  obtain ⟨again, log, ran, recompiled, options⟩ := acceptNode_runs completes
  cases recompiled.symm.trans compiled
  have bounded := compileEx_pushProgramsBelow env.platform flags knownHelpers (some node) compiled
  obtain ⟨written, placed, moduleFlags, hosted⟩ := programSerialize_hosted now addr _ bounded
  cases placed.symm.trans serialized
  obtain ⟨-, pair, code, appended⟩ :=
    acceptNode_emits (ready.stage env stored flags knownHelpers) rfl covered ran
  have program := appended.hosted rfl (hosted.same same)
  unfold Exec.execute Exec.executeEx
  rw [Proc.bind_read]
  exact Proc.Does.caught (executeModule_does ready inert enough
    (same.flags.trans (moduleFlags.trans options)) program) ready.jmp

/-- An environment without partials, caches and helpers, where modules stand for themselves -/
def greetingEnv : Env Module Unit where
  platform := ⟨fun text => (text.headD 0).toUInt32, fun _ => none, fun _ => 0, fun _ => bytes "0"⟩
  module := id
  compileTemplate := fun _ _ _ => none
  preprocessDelimiters := fun text _ _ => some text
  userHelper := fun _ _ _ => .ret .null
  cacheFind := fun cache _ => (.ok none, cache)
  cacheAdd := fun cache _ _ => .ok cache
  cacheRelease := fun cache _ _ => cache

/-- The render data `@season` -/
def greetingData : StrMap (Value Module) := [(bytes "season", .string (bytes "May") false)]

/-- A VM in which nothing has run -/
def idleMachine (flags : Flags) : Machine Module Unit :=
  ⟨{ vmCtor false with flags := flags, data := .map 3 greetingData, alloc := 4 }, []⟩

/-- The path of a name -/
def named (data : Bool) (text : String) : HelperName :=
  .path ⟨.zero, some (bytes text), [bytes text], 0, data, false, false⟩

/-- `Hi {{#each guests sep="-"}}{{@index}}{{@season}}{{lookup this "name"}} {{else}}nobody
{{/each}}{{host}}` -/
def greeting : ProgramNode :=
  .mk .zero [] [.content .zero (bytes "Hi "),
    .block .zero (named false "each") [.name (named false "guests")]
      (some (.mk .zero [.mk (bytes "sep") (.name (.literal .string .zero (bytes "-")))]))
      (some (.mk .zero [] [
        .mustache .zero (named true "index") [] none false false,
        .mustache .zero (named true "season") [] none false false,
        .mustache .zero (named false "lookup")
          [.name (.path ⟨.zero, some (bytes "this"), [], 0, false, false, false⟩),
            .name (.literal .string .zero (bytes "name"))] none false false,
        .content .zero (bytes " ")] none none))
      (some (.mk .zero [] [.content .zero (bytes "nobody\n")] none none)) false,
    .mustache .zero (named false "host") [] none false false] none none

def guest (addr : Nat) (name : String) : Value Module :=
  .map addr [(bytes "name", .string (bytes name) false)]

def greetingContext : Value Module :=
  .map 0 [(bytes "guests", .array 0 [guest 1 "<b>", guest 2 "Bo"]),
    (bytes "host", .string (bytes "Al") false)]

theorem greetingData_inert : ∀ entry ∈ greetingData, entry.2.Inert (· < 3) := by
  simp [greetingData, Value.Inert, Value.All, Value.Local]

theorem greeting_ready (flags : Flags) : Ready (· < 3) greetingData (idleMachine flags).vm :=
  ⟨rfl, rfl, ⟨0, rfl⟩, rfl, rfl, rfl, .map (by decide), greetingData_inert,
    fun _ below => Nat.lt_succ_of_lt below⟩

theorem greeting_inert : greetingContext.Inert (· < 3) := by
  simp [greetingContext, guest, Value.Inert, Value.All, Value.AllEntries, Value.AllItems,
    Value.Local]

theorem greeting_covered : nodeCovered greeting = true := rfl

theorem greeting_calls : nodeCalls greeting < 9 := by decide

theorem greeting_completes : visitNode greetingEnv.platform (.start 0 []) greeting = .completes := rfl

theorem greeting_completes_strict :
    visitNode greetingEnv.platform (.start Flag.strict []) greeting = .completes := rfl

theorem greeting_completes_known :
    visitNode greetingEnv.platform (.start Flag.knownHelpersOnly []) greeting = .completes := rfl

/-- Whatever the compiler visits has a module in the environment. -/
theorem exists_template (flags : Flags) (node : ProgramNode)
    (completes : visitNode greetingEnv.platform (.start flags []) node = .completes)
    (covered : nodeCovered node = true) : ∃ stored, Template greetingEnv stored flags [] node := by
  obtain ⟨compiler, module, compiled, serialized⟩ := exists_module 0 0 completes
  exact ⟨module, completes, covered, compiler, 0, 0, module, compiled, serialized, .refl _⟩

theorem greeting_means : render (modeOf greetingEnv.platform 0 [] 0) greeting greetingContext
    greetingData = .ok (bytes "Hi 0May&lt;b&gt; 1MayBo Al") := rfl

/-- What the greeting means is what its module renders. -/
theorem greeting_runs {stored : Module} {context : Value Module} {flags : Flags}
    {result : Meaning Str} (template : Template greetingEnv stored flags [] greeting)
    (inert : context.Inert (· < 3))
    (meant : render (modeOf greetingEnv.platform flags [] 0) greeting context greetingData = result) :
    Renders (· < 3) greetingData 0 result
      (Exec.execute greetingEnv (Exec.level greetingEnv 9) stored context (idleMachine 0)).1 := by
  rw [← meant]
  have renders := template.renders (greeting_ready 0) inert greeting_calls
  exact renders

/-- A module that is to be rendered in a context -/
structure Job (μ : Type) where
  stored : μ
  context : Value μ

/-- A job whose template means this text -/
structure Job.Means (env : Env μ κ) (owned : Nat → Prop) (entries : StrMap (Value μ)) (vmFlags : Flags)
    (fuel : Nat) (job : Job μ) (text : Str) : Prop where
  inert : job.context.Inert owned
  template : ∃ flags knownHelpers node, Template env job.stored flags knownHelpers node ∧
    nodeCalls node < fuel ∧
    render (modeOf env.platform flags knownHelpers vmFlags) node job.context entries = .ok text

theorem Job.Means.executed {vmFlags : Flags} {job : Job μ} {text : Str}
    (means : job.Means env owned entries vmFlags fuel text) (ready : Ready owned entries machine.vm)
    (same : machine.vm.flags = vmFlags) :
    ∃ after, (Exec.execute env (Exec.level env fuel) job.stored job.context machine).1 =
      .ok (some text) after ∧ Ready owned entries after.vm ∧ after.vm.flags = vmFlags := by
  obtain ⟨flags, knownHelpers, node, template, enough, meant⟩ := means.template
  have renders := template.renders ready means.inert enough
  rw [same, meant] at renders
  exact renders

end Running

end Render

end HandlebarsC
