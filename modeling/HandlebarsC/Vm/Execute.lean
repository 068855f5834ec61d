import HandlebarsC.Vm.State

/-!
`handlebars_vm_execute_ex`, `execute_template` and the closures of the VM, given
the two functions the VM comes back to: running a program and calling a value.
-/

namespace HandlebarsC

open Effect

/-- `handlebars_vm_execute_program_ex` and `handlebars_value_call`. -/
structure Rec (μ κ : Type) where
  executeProgramEx : Int → Value μ → Option (Value μ) → Option (Value μ) → Exec μ κ Str
  valueCall : Value μ → List (Value μ) → Options μ → Exec μ κ (Value μ)

namespace Exec

variable {μ κ : Type}

/-- `handlebars_vm_execute_program` -/
def executeProgram (rec : Rec μ κ) (program : Int) (context : Value μ) : Exec μ κ Str :=
  rec.executeProgramEx program context none none

/-- The stacks and the cell of `last_context`, on the C stack of the outermost call. -/
def setupStacks : Exec μ κ Unit := do
  writeVm fun vm => { vm with stackSet := some (vm.stackSet.getD .empty) }
  let addr ← allocate
  writeVm fun vm => { vm with lastContext := some (vm.lastContext.getD ⟨addr, .null⟩) }

/-- After a `longjmp` the programs that were in progress no longer are. -/
def giveUp (activations : List (Activation μ)) : Exec μ κ (Option α) := do
  Proc.emit .caught
  Proc.write fun machine => { machine with activations := activations }
  pure none

/-- The part of `handlebars_vm_execute_ex` that errors jump out of. -/
def executeModule (env : Env μ κ) (rec : Rec μ κ) (module : μ) (context : Value μ) (program : Int)
    (data blockParams : Option (Value μ)) : Exec μ κ (Option Str) := do
  writeVm fun vm => { vm with jmp := true }
  setupStacks
  writeVm fun vm => { vm with
    module := some module
    flags := vm.flags ||| (env.module module).flags }
  let buffer ← rec.executeProgramEx program context data blockParams
  pure (some buffer)

/-- What `handlebars_vm_execute_ex` resets, pointers to the values they had before. -/
def resetVm (prev : Vm μ κ) (vm : Vm μ κ) : Vm μ κ :=
  { vm with
    jmp := prev.jmp
    stackSet := if prev.stackSet.isNone then none else vm.stackSet
    delimOpen := prev.delimOpen
    delimClose := prev.delimClose
    lastContext := if prev.lastContext.isNone then none else vm.lastContext
    module := prev.module
    flags := prev.flags }

/-- Where errors end up: at the caller's jump buffer, when there is one. -/
def catchErrors (prev : Machine μ κ) (body : Exec μ κ (Option α)) : Exec μ κ (Option α) :=
  if prev.vm.jmp then body else Proc.catching body (giveUp prev.activations)

/-- `handlebars_vm_execute_ex` -/
def executeEx (env : Env μ κ) (rec : Rec μ κ) (module : μ) (context : Value μ) (program : Int)
    (data blockParams : Option (Value μ)) : Exec μ κ (Option Str) := do
  let prev ← Proc.read id
  let buffer ← catchErrors prev (executeModule env rec module context program data blockParams)
  writeVm (resetVm prev.vm)
  pure buffer

/-- `handlebars_vm_execute` -/
def execute (env : Env μ κ) (rec : Rec μ κ) (module : μ) (context : Value μ) :
    Exec μ κ (Option Str) :=
  executeEx env rec module context 0 none none

/-- `handlebars_cache_find`, when there is a cache. -/
def cacheFind (env : Env μ κ) (tmpl : Str) : Exec μ κ (Option μ) := do
  match ← readVm Vm.cache with
  | none => pure none
  | some cache =>
    let (result, after) := env.cacheFind cache tmpl
    writeVm fun vm => { vm with cache := some after }
    match result with
    | .ok found => pure found
    | .error error => raise error

def cacheAdd (env : Env μ κ) (tmpl : Str) (module : μ) : Exec μ κ Unit := do
  match ← readVm Vm.cache with
  | none => pure ()
  | some cache =>
    match env.cacheAdd cache tmpl module with
    | .ok after => writeVm fun vm => { vm with cache := some after }
    | .error error => raise error

/-- `if (from_cache) handlebars_cache_release(…)` -/
def cacheRelease (env : Env μ κ) (tmpl : Str) (found : Option μ) : Exec μ κ Unit :=
  match found with
  | none => pure ()
  | some module => writeVm fun vm => { vm with
      cache := vm.cache.map fun cache => env.cacheRelease cache tmpl module }

/-- The text that is parsed: in `compat` mode after delimiters and indentation. -/
def templateText (env : Env μ κ) (vm : Vm μ κ) (tmpl : Str) (indent : Option Str)
    (useDelimiters : Bool) : Option Str :=
  if vm.flags.has Flag.compat then
    (env.preprocessDelimiters tmpl (if useDelimiters then vm.delimOpen else none)
      (if useDelimiters then vm.delimClose else none)).map fun text =>
        match indent with
        | some indent => indentText text indent
        | none => text
  else some tmpl

/-- Parses, compiles, serializes and stores a template. -/
def compileAndStore (env : Env μ κ) (tmpl : Str) (indent : Option Str) (useDelimiters : Bool) :
    Exec μ κ μ := do
  let vm ← readVm id
  let text ← nonnull (templateText env vm tmpl indent useDelimiters)
  let addr ← allocate
  let module ← nonnull (env.compileTemplate addr vm.flags text)
  cacheAdd env text module
  pure module

/-- The cached module, or a new one. -/
def templateModule (env : Env μ κ) (tmpl : Str) (found : Option μ) (indent : Option Str)
    (useDelimiters : Bool) : Exec μ κ (Option μ) := do
  writeVm fun vm => { vm with jmp := true }
  match found with
  | some module => pure (some module)
  | none => do
    let module ← compileAndStore env tmpl indent useDelimiters
    pure (some module)

/-- Executes the module of a template. -/
def executeTemplateModule (env : Env μ κ) (rec : Rec μ κ) (module : μ) (input : Value μ)
    (indent : Option Str) : Exec μ κ (Option Str) := do
  writeVm fun vm => { vm with depth := vm.depth + 1 }
  let retval ← nonnull (← execute env rec module input)
  let flags ← readVm Vm.flags
  match indent with
  | some indent => pure (some (if flags.has Flag.compat then retval else indentText retval indent))
  | none => pure (some retval)

/-- The part of `execute_template` that errors jump out of, in two pieces: both jump to
the same place, but only the second one has touched the VM by then. -/
def executeTemplateBody (env : Env μ κ) (rec : Rec μ κ) (tmpl : Str) (found : Option μ)
    (input : Value μ) (indent : Option Str) (useDelimiters : Bool) : Exec μ κ (Option Str) :=
  if tmpl.isEmpty then pure none
  else do
    let activations ← Proc.read Machine.activations
    match ← Proc.catching (templateModule env tmpl found indent useDelimiters) (pure none) with
    | none => pure none
    | some module =>
      Proc.catching (executeTemplateModule env rec module input indent) (giveUp activations)

/-- `execute_template`; its `escape` is never read. -/
def executeTemplate (env : Env μ κ) (rec : Rec μ κ) (tmpl : Str) (input : Value μ)
    (indent : Option Str) (useDelimiters : Bool) : Exec μ κ Str := do
  let found ← cacheFind env tmpl
  let prev ← readVm id
  let retval ← executeTemplateBody env rec tmpl found input indent useDelimiters
  writeVm fun vm => { vm with jmp := prev.jmp, depth := prev.depth }
  cacheRelease env tmpl found
  pure (retval.getD [])

/-- `vm->module == module` -/
def isCurrentModule (env : Env μ κ) (vm : Vm μ κ) (module : μ) : Bool :=
  match vm.module with
  | some current => (env.module current).addr == (env.module module).addr
  | none => false

/-- `rv`, when there is a buffer. -/
def stringOrNull : Option Str → Value μ
  | some buffer => .string buffer false
  | none => .null

/-- The context of a partial block: the argument, else the caller's. -/
def partialBlockInput : List (Value μ) → Exec μ κ (Value μ)
  | first :: _ => pure first
  | [] => topContext

/-- Runs the block, in its own module. -/
def executePartialBlock (env : Env μ κ) (rec : Rec μ κ) (module : μ) (program : Int)
    (argv : List (Value μ)) : Exec μ κ (Value μ) := do
  let input ← partialBlockInput argv
  let blockParams := (← stackOf StackField.blockParamStack).top
  let vm ← readVm id
  if isCurrentModule env vm module then do
    let buffer ← rec.executeProgramEx program input none blockParams
    pure (.string buffer false)
  else do
    let buffer ← executeEx env rec module input program none blockParams
    pure (stringOrNull buffer)

/-- `invoke_partial_block_closure` -/
def invokePartialBlockClosure (env : Env μ κ) (rec : Rec μ κ) (module : μ) (program depth : Int)
    (argv : List (Value μ)) : Exec μ κ (Value μ) := do
  Proc.emit .partialBlock
  if depth > 0 then do
    let stack ← stackOf StackField.partialBlockStack
    let outer ← nonnull (stack.getOffset (depth - 1).toNat)
    withPartialBlock outer (executePartialBlock env rec module program argv)
  else executePartialBlock env rec module program argv

/-- `invoke_partial_string_closure` -/
def invokePartialStringClosure (env : Env μ κ) (rec : Rec μ κ) (tmpl : Str) (indent : Option Str)
    (argv : List (Value μ)) : Exec μ κ (Value μ) := do
  let input ← nonnull argv.head?
  let buffer ← executeTemplate env rec tmpl input indent false
  pure (.string buffer false)

/-- `invoke_mustache_style_lambda_closure` -/
def invokeMustacheStyleLambdaClosure (env : Env μ κ) (rec : Rec μ κ) (callable : Value μ)
    (lambdaTmpl : Str) (useDelimiters : Bool) (options : Options μ) : Exec μ κ (Value μ) := do
  let result ← rec.valueCall callable [.string lambdaTmpl false] options
  if result.isEmpty then pure .null
  else do
    let buffer ← executeTemplate env rec (result.toText env.platform) callable none useDelimiters
    pure (.string buffer false)

/-- `handlebars_closure_call` -/
def closureCall (env : Env μ κ) (rec : Rec μ κ) (fn : ClosureFunc) (localv argv : List (Value μ))
    (options : Options μ) : Exec μ κ (Value μ) :=
  match fn, localv with
  | .partialBlock, [.ptr _ module, .integer program, .integer depth] =>
    invokePartialBlockClosure env rec module program depth argv
  | .partialString, [.string tmpl _, .string indent _] =>
    invokePartialStringClosure env rec tmpl (some indent) argv
  | .partialString, [.string tmpl _, .null] =>
    invokePartialStringClosure env rec tmpl none argv
  | .mustacheStyleLambda, [callable, .string lambdaTmpl _, .boolean useDelimiters] =>
    invokeMustacheStyleLambdaClosure env rec callable lambdaTmpl useDelimiters options
  | _, _ => Proc.abort

end Exec

end HandlebarsC
