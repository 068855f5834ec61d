import HandlebarsC.Vm.Execute

/-!
`handlebars_helpers.c`: the built-in helpers, and `handlebars_value_call`.
-/

namespace HandlebarsC

open Effect

namespace Exec

variable {μ κ : Type}

/-- An element of an array or map, or of the JSON behind a user value. -/
inductive Child (μ : Type) where
  | value (value : Value μ)
  | json (json : Json)

/-- The children `handlebars_value_iterator_init` goes through, with their keys. -/
def children : Value μ → List (Option Str × Child μ)
  | .array _ items => items.map fun item => (none, .value item)
  | .map _ entries => entries.map fun entry => (some entry.1, .value entry.2)
  | .user _ (.array items) => items.map fun item => (none, .json item)
  | .user _ (.object entries) => entries.map fun entry => (some entry.1, .json entry.2)
  | _ => []

/-- `it->cur`, which a JSON `null` leaves as it was. -/
def childValue (stale : Value μ) : Child μ → Exec μ κ (Value μ)
  | .value value => pure value
  | .json json => valueOfJson stale json

/-- Marks a map as being iterated. A map that is already makes the process end, and so does
the assertion that a JSON object has a member. -/
def beginIteration : Value μ → Exec μ κ Unit
  | .map addr (_ :: _) => do
    let inIteration ← readVm Vm.inIteration
    if inIteration.contains addr then Proc.abort
    else writeVm fun vm => { vm with inIteration := addr :: vm.inIteration }
  | .user _ (.object []) => Proc.abort
  | _ => pure ()

def endIteration : Value μ → Exec μ κ Unit
  | .map addr (_ :: _) => writeVm fun vm => { vm with inIteration := vm.inIteration.erase addr }
  | _ => pure ()

/-- A loop that copies the entries of a map into another one. -/
def copyEntries (platform : Platform) (value : Value μ) (into : List (Str × Value μ)) :
    Exec μ κ (List (Str × Value μ)) := do
  beginIteration value
  let into ← copyLoop .null (children value) into
  endIteration value
  pure into
where
  copyLoop (stale : Value μ) (left : List (Option Str × Child μ)) (into : List (Str × Value μ)) :
      Exec μ κ (List (Str × Value μ)) :=
    match left with
    | [] => pure into
    | (key, child) :: rest => do
      let value ← childValue stale child
      copyLoop value rest (StrMap.update platform.hash into (key.getD []) value)

/-- The result of a callable argument, called with the scope. -/
def resolveArgument (rec : Rec μ κ) (value : Value μ) (options : Options μ) :
    Exec μ κ (Value μ) :=
  if value.isCallable then rec.valueCall value [options.scope] options else pure value

/-- The data of one iteration of `#each`. -/
def eachData (platform : Platform) (dataMap : List (Str × Value μ)) (i len : Nat)
    (key : Value μ) : List (Str × Value μ) :=
  let dataMap := StrMap.update platform.hash dataMap (bytes "index") (.integer i)
  let dataMap := StrMap.update platform.hash dataMap (bytes "key") key
  let dataMap := StrMap.update platform.hash dataMap (bytes "first") (.boolean (i == 0))
  StrMap.update platform.hash dataMap (bytes "last") (.boolean (i == len))

/-- The loop of `handlebars_builtin_each`. -/
def eachLoop (env : Env μ κ) (rec : Rec μ κ) (options : Options μ) (len : Nat) :
    Nat → Option (List (Str × Value μ)) → Value μ → List (Option Str × Child μ) → Str →
      Exec μ κ Str
  | _, _, _, [], result => pure result
  | i, dataMap, stale, (key, child) :: rest, result => do
    let value ← childValue stale child
    let keyValue : Value μ := match key with
      | some key => .string key false
      | none => .integer i
    let dataMap := dataMap.map fun entries => eachData env.platform entries i len keyValue
    let addr ← allocate
    let blockParamsAddr ← allocate
    let data : Value μ := match dataMap with
      | some entries => .map addr entries
      | none => .null
    let blockParams : Value μ := match dataMap with
      | some _ => .array blockParamsAddr [value, keyValue]
      | none => .null
    let text ← rec.executeProgramEx options.program value (some data) (some blockParams)
    eachLoop env rec options len (i + 1) dataMap value rest (result ++ text)

/-- `data_map` before the loop, when data is used. -/
def eachDataMap (env : Env μ κ) (options : Options μ) :
    Exec μ κ (Option (List (Str × Value μ))) :=
  match options.data with
  | none => pure none
  | some data =>
    if data.type = .map then do
      let entries ← copyEntries env.platform data []
      pure (some entries)
    else pure (some [])

/-- `handlebars_builtin_each` -/
def builtinEach (env : Env μ κ) (rec : Rec μ κ) (argv : List (Value μ)) (options : Options μ) :
    Exec μ κ (Value μ) :=
  match argv with
  | [] => raiseError (bytes "Must pass iterator to #each")
  | argument :: _ => do
    let context ← resolveArgument rec argument options
    if context.type = .map ∨ context.type = .array then do
      let dataMap ← eachDataMap env options
      if context.count ≤ 0 then do
        let text ← executeProgram rec options.inverse options.scope
        pure (.string text false)
      else do
        beginIteration context
        let text ← eachLoop env rec options (context.count.toNat - 1) 0 dataMap .null
          (children context) []
        endIteration context
        pure (.string text false)
    else do
      let text ← executeProgram rec options.inverse options.scope
      pure (.string text false)

/-- `lookup_helper` -/
def lookupHelper (env : Env μ κ) (name : Str) : Exec μ κ (Option (Value μ)) := do
  match ← mapFind env.platform (← readVm Vm.helpers) name with
  | some helper => pure (some helper)
  | none => pure ((builtinsFind name).map fun builtin => .helper (.builtin builtin))

/-- `handlebars_vm_call_helper_str` -/
def callHelperStr (env : Env μ κ) (rec : Rec μ κ) (name : Str) (argv : List (Value μ))
    (options : Options μ) : Exec μ κ (Option (Value μ)) := do
  match ← lookupHelper env name with
  | some helper => do
    let result ← rec.valueCall helper argv options
    pure (some result)
  | none => pure none

/-- `handlebars_builtin_block_helper_missing` -/
def builtinBlockHelperMissing (env : Env μ κ) (rec : Rec μ κ) (argv : List (Value μ))
    (options : Options μ) : Exec μ κ (Value μ) :=
  match argv with
  | [] => do
    let text ← executeProgram rec options.inverse options.scope
    pure (.string text false)
  | context :: _ =>
    let isZero := context.type = .integer ∧ context.intval = 0
    if context.type = .true then do
      let text ← executeProgram rec options.program options.scope
      pure (.string text false)
    else if context.isEmpty ∧ ¬isZero then do
      let text ← executeProgram rec options.inverse options.scope
      pure (.string text false)
    else if context.type = .array then do
      nonnull (← callHelperStr env rec (bytes "each") argv options)
    else do
      let text ← executeProgram rec options.program context
      pure (.string text false)

/-- `handlebars_builtin_helper_missing` -/
def builtinHelperMissing (argv : List (Value μ)) (options : Options μ) : Exec μ κ (Value μ) :=
  if argv.length ≠ 0 then do
    let name ← nonnull options.name
    raiseError (bytes "Missing helper: \"" ++ name ++ bytes "\"")
  else pure .null

/-- The assertion on the indentation of `handlebars_value_dump`. -/
def indentFits (depth : Nat) : Bool := (depth + 1) * 4 < 128

mutual

/-- The loop over an array without items visits a null, and the one over an object asserts that
there is a member. -/
def jsonFits (depth : Nat) : Json → Bool
  | .array items => indentFits depth && (!items.isEmpty || indentFits (depth + 1)) &&
      jsonItemsFit (depth + 1) items
  | .object entries => indentFits depth && !entries.isEmpty && jsonEntriesFit (depth + 1) entries
  | _ => indentFits depth

def jsonItemsFit (depth : Nat) : List Json → Bool
  | [] => true
  | item :: rest => jsonFits depth item && jsonItemsFit depth rest

def jsonEntriesFit (depth : Nat) : List (Str × Json) → Bool
  | [] => true
  | (_, item) :: rest => jsonFits depth item && jsonEntriesFit depth rest

end

mutual

/-- `handlebars_value_dump` comes to its end: it iterates the maps it meets. -/
def dumps (inIteration : List Nat) (depth : Nat) : Value μ → Bool
  | .array _ items => indentFits depth && dumpsItems inIteration (depth + 1) items
  | .map addr entries => indentFits depth && (entries.isEmpty || !inIteration.contains addr) &&
      dumpsEntries inIteration (depth + 1) entries
  | .user _ json => jsonFits depth json
  | _ => indentFits depth

def dumpsItems (inIteration : List Nat) (depth : Nat) : List (Value μ) → Bool
  | [] => true
  | item :: rest => dumps inIteration depth item && dumpsItems inIteration depth rest

def dumpsEntries (inIteration : List Nat) (depth : Nat) : List (Str × Value μ) → Bool
  | [] => true
  | (_, item) :: rest => dumps inIteration depth item && dumpsEntries inIteration depth rest

end

/-- A registered helper at work. -/
def runHelper (rec : Rec μ κ) (options : Options μ) : HelperCode μ → Exec μ κ (Value μ)
  | .ret value => pure value
  | .throw error => raise error
  | .executeProgram program context data blockParams next => do
    let text ← rec.executeProgramEx program context data blockParams
    runHelper rec options (next text)
  | .call value argv next => do
    let result ← rec.valueCall value argv options
    runHelper rec options (next result)

/-- `handlebars_builtin_log` -/
def builtinLog (env : Env μ κ) (rec : Rec μ κ) (argv : List (Value μ)) (options : Options μ) :
    Exec μ κ (Value μ) := do
  match ← readVm Vm.logFunc with
  | some id => runHelper rec options (env.userHelper id argv options)
  | none => do
    let inIteration ← readVm Vm.inIteration
    if dumpsItems inIteration 0 argv then pure .null else Proc.abort

/-- `handlebars_builtin_lookup`. It returns the NULL of a missing array element, which
`handlebars_value_call` does not take. -/
def builtinLookup (env : Env μ κ) (argv : List (Value μ)) : Exec μ κ (Value μ) :=
  match argv with
  | context :: field :: _ =>
    if context.type = .map then do
      let found ← mapFind env.platform context (field.toText env.platform)
      pure (found.getD .null)
    else if context.type = .array ∧ field.type = .integer then do
      nonnull (← arrayFind context field.intval)
    else pure .null
  | _ => raiseError (bytes "lookup requires two parameters")

/-- The test of `handlebars_builtin_if`, with its `includeZero`. -/
def isTrue (env : Env μ κ) (conditional : Value μ) (options : Options μ) : Exec μ κ Bool :=
  if ¬conditional.isEmpty then pure true
  else if conditional.type = .integer ∧ conditional.intval = 0 then do
    let hash ← nonnull options.hash
    let found ← mapFind env.platform hash (bytes "includeZero")
    pure found.isSome
  else pure false

/-- `handlebars_builtin_if` -/
def builtinIf (env : Env μ κ) (rec : Rec μ κ) (argv : List (Value μ)) (options : Options μ) :
    Exec μ κ (Value μ) :=
  match argv with
  | [argument] => do
    let conditional ← resolveArgument rec argument options
    let chosen ← isTrue env conditional options
    let text ← executeProgram rec (if chosen then options.program else options.inverse)
      options.scope
    pure (.string text false)
  | _ => raiseError (bytes "#if requires exactly one argument")

/-- `handlebars_builtin_unless` -/
def builtinUnless (env : Env μ κ) (rec : Rec μ κ) (argv : List (Value μ)) (options : Options μ) :
    Exec μ κ (Value μ) :=
  match argv with
  | [argument] => do
    nonnull (← callHelperStr env rec (bytes "if") [.boolean argument.isEmpty] options)
  | _ => raiseError (bytes "#unless requires exactly one argument")

/-- `handlebars_builtin_with` -/
def builtinWith (rec : Rec μ κ) (argv : List (Value μ)) (options : Options μ) :
    Exec μ κ (Value μ) :=
  match argv with
  | [argument] => do
    let context ← resolveArgument rec argument options
    if context.type = .null then do
      let text ← executeProgram rec options.inverse context
      pure (.string text false)
    else do
      let addr ← allocate
      let text ← rec.executeProgramEx options.program context options.data
        (some (.array addr [context]))
      pure (.string text false)
  | _ => raiseError (bytes "#with requires exactly one argument")

/-- `handlebars_builtin_hbsc_set_delimiters` -/
def builtinSetDelimiters (argv : List (Value μ)) : Exec μ κ (Value μ) :=
  match argv with
  | [.string delimOpen _, .string delimClose _] => do
    writeVm fun vm => { vm with delimOpen := some delimOpen, delimClose := some delimClose }
    pure .null
  | _ => pure .null

def callBuiltin (env : Env μ κ) (rec : Rec μ κ) (builtin : Builtin) (argv : List (Value μ))
    (options : Options μ) : Exec μ κ (Value μ) :=
  match builtin with
  | .blockHelperMissing => builtinBlockHelperMissing env rec argv options
  | .helperMissing => builtinHelperMissing argv options
  | .each => builtinEach env rec argv options
  | .ifHelper => builtinIf env rec argv options
  | .unless => builtinUnless env rec argv options
  | .with => builtinWith rec argv options
  | .log => builtinLog env rec argv options
  | .lookup => builtinLookup env argv
  | .setDelimiters => builtinSetDelimiters argv

/-- `handlebars_value_call` -/
def valueCall (env : Env μ κ) (rec : Rec μ κ) (value : Value μ) (argv : List (Value μ))
    (options : Options μ) : Exec μ κ (Value μ) :=
  match value with
  | .helper (.builtin builtin) => callBuiltin env rec builtin argv options
  | .helper (.user id) => runHelper rec options (env.userHelper id argv options)
  | .closure _ fn localv => closureCall env rec fn localv argv options
  | _ => raiseError (bytes "Unable to call value of type: " ++ value.realType.readable)

end Exec

end HandlebarsC
