import HandlebarsC.Vm.Helpers

/-!
The opcodes of `handlebars_vm.c`.
-/

namespace HandlebarsC

open Effect

namespace Operand

/-- `data.longval`, under the assertion on the type. -/
def longval? : Operand → Option Int
  | .long longval => some longval
  | _ => none

/-- `data.boolval` of a boolean or a null operand. -/
def boolval? : Operand → Option Bool
  | .boolean boolval => some boolval
  | .null boolval => some boolval
  | _ => none

def string? : Operand → Option Str
  | .string content => some content
  | _ => none

def array? : Operand → Option (List Str)
  | .array items => some items
  | _ => none

end Operand

namespace Exec

variable {μ κ : Type}

/-- `setup_options` -/
def setupOptions (argc : Nat) (name : Option Str) : Exec μ κ (Options μ × List (Value μ)) := do
  let hash ← pop StackField.stack
  let scope ← topContext
  let data ← readVm Vm.data
  let inverse ← pop StackField.stack
  let program ← pop StackField.stack
  let argv ← popArguments argc []
  pure ({ name := name, hash := hash, scope := scope, data := some data
          inverse := (inverse.map Value.intval).getD (-1)
          program := (program.map Value.intval).getD (-1) }, argv)
where
  popArguments : Nat → List (Value μ) → Exec μ κ (List (Value μ))
    | 0, argv => pure argv
    | argc + 1, argv => do
      let value ← pop StackField.stack
      popArguments argc (value.getD .null :: argv)

/-- `append_to_buffer` -/
def appendToBuffer (env : Env μ κ) (result : Value μ) (escape : Bool) : Exec μ κ Unit :=
  appendBuffer (result.expression env.platform escape)

/-- `accept_ambiguous_block_value` -/
def acceptAmbiguousBlockValue (env : Env μ κ) (rec : Rec μ κ) : Exec μ κ Unit := do
  match ← readVm Vm.lastHelper with
  | none => do
    let (options, argv) ← setupOptions 1 none
    let result ← nonnull (← callHelperStr env rec (bytes "blockHelperMissing") argv options)
    push StackField.stack result
  | some lastHelper => do
    let _ ← setupOptions 0 none
    if lastHelper = bytes "lambda" then writeVm fun vm => { vm with lastHelper := none }

/-- `accept_append` and `accept_append_escaped` -/
def acceptAppendWith (env : Env μ κ) (escape : Bool) : Exec μ κ Unit := do
  match ← pop StackField.stack with
  | some value => appendToBuffer env value escape
  | none => pure ()

def acceptAppend (env : Env μ κ) : Exec μ κ Unit := acceptAppendWith env false

def acceptAppendEscaped (env : Env μ κ) : Exec μ κ Unit := acceptAppendWith env true

/-- `accept_append_content` -/
def acceptAppendContent (opcode : Opcode) : Exec μ κ Unit := do
  let content ← nonnull opcode.op1.string?
  appendBuffer content

/-- The places of the map that `push_hash` makes -/
def hashCapacity : Nat := 4

/-- `accept_assign_to_hash`: an update of a full map frees it, and `handlebars_value_map` then
releases it again, which is undefined. -/
def acceptAssignToHash (env : Env μ κ) (opcode : Opcode) : Exec μ κ Unit := do
  let hash ← popAssert StackField.hashStack
  let value ← popAssert StackField.stack
  let key ← nonnull opcode.op1.string?
  match hash with
  | .map _ entries =>
    if entries.length < hashCapacity then do
      let addr ← allocate
      push StackField.hashStack (.map addr (StrMap.update env.platform.hash entries key value))
    else Proc.abort
  | _ => Proc.abort

/-- `accept_block_value`: the result goes to the buffer and nothing on the stack. -/
def acceptBlockValue (env : Env μ κ) (rec : Rec μ κ) (opcode : Opcode) : Exec μ κ Unit := do
  let name ← nonnull opcode.op1.string?
  let (options, argv) ← setupOptions 1 (some name)
  match ← callHelperStr env rec (bytes "blockHelperMissing") argv options with
  | some result => appendToBuffer env result false
  | none => pure ()

/-- `accept_empty_hash` -/
def acceptEmptyHash : Exec μ κ Unit := do
  let addr ← allocate
  push StackField.stack (.map addr [])

/-- `*vm->last_context = value` -/
def setLastContext (value : Value μ) : Exec μ κ Unit := do
  let cell ← nonnull (← readVm Vm.lastContext)
  writeVm fun vm => { vm with lastContext := some { cell with value := value } }

/-- `accept_get_context`. A negative depth is a huge unsigned one. -/
def acceptGetContext (opcode : Opcode) : Exec μ κ Unit := do
  let depth ← nonnull opcode.op1.longval?
  let stack ← stackOf StackField.contextStack
  setLastContext (if depth < 0 then .null else (stack.get depth.toNat).getD .null)

/-- What `invoke_ambiguous` calls, and the name it leaves in `last_helper`. -/
def chooseAmbiguous (env : Env μ κ) (opcode : Opcode) (name : Str) (value : Value μ) :
    Exec μ κ (Value μ × Value μ × Option Str) := do
  let flags ← readVm Vm.flags
  if flags.has Flag.mustacheStyleLambdas ∧ value.isCallable then do
    let lambdaTmpl ← nonnull opcode.op3.string?
    let useDelimiters ← nonnull opcode.op2.boolval?
    let addr ← allocate
    let closure : Value μ := .closure addr .mustacheStyleLambda
      [value, .string lambdaTmpl false, .boolean useDelimiters]
    pure (closure, closure, some (bytes "lambda"))
  else
    match ← lookupHelper env name with
    | some helper => pure (helper, value, some name)
    | none =>
      if value.isCallable then pure (value, value, none)
      else do
        let missing ← nonnull (← lookupHelper env (bytes "helperMissing"))
        pure (missing, value, none)

/-- `accept_invoke_ambiguous` -/
def acceptInvokeAmbiguous (env : Env μ κ) (rec : Rec μ κ) (opcode : Opcode) : Exec μ κ Unit := do
  let value ← popAssert StackField.stack
  acceptEmptyHash
  let name ← nonnull opcode.op1.string?
  let (options, argv) ← setupOptions 0 (some name)
  writeVm fun vm => { vm with lastHelper := none }
  let (fn, value, lastHelper) ← chooseAmbiguous env opcode name value
  let result ← rec.valueCall fn argv options
  push StackField.stack (if result.realType = .null then value else result)
  writeVm fun vm => { vm with lastHelper := lastHelper }

/-- The function `invoke_helper` calls. -/
def chooseHelper (env : Env μ κ) (isSimple : Bool) (name : Str) (value : Value μ) :
    Exec μ κ (Value μ) := do
  match ← (if isSimple then lookupHelper env name else pure none) with
  | some helper => pure helper
  | none =>
    if value.isCallable then pure value
    else nonnull (← lookupHelper env (bytes "helperMissing"))

/-- `accept_invoke_helper` -/
def acceptInvokeHelper (env : Env μ κ) (rec : Rec μ κ) (opcode : Opcode) : Exec μ κ Unit := do
  let value ← popAssert StackField.stack
  let argc ← nonnull opcode.op1.longval?
  let name ← nonnull opcode.op2.string?
  let isSimple ← nonnull opcode.op3.boolval?
  let (options, argv) ← setupOptions argc.toNat (some name)
  let fn ← chooseHelper env isSimple name value
  let result ← rec.valueCall fn argv options
  push StackField.stack result

/-- `accept_invoke_known_helper` -/
def acceptInvokeKnownHelper (env : Env μ κ) (rec : Rec μ κ) (opcode : Opcode) :
    Exec μ κ Unit := do
  let argc ← nonnull opcode.op1.longval?
  let name ← nonnull opcode.op2.string?
  let (options, argv) ← setupOptions argc.toNat (some name)
  match ← lookupHelper env name with
  | some fn => do
    let result ← rec.valueCall fn argv options
    push StackField.stack result
  | none => raise ⟨.error, bytes "Invalid known helper: " ++ name, opcode.loc⟩

/-- The name of a partial: of a dynamic one the string on the stack. -/
def partialName (opcode : Opcode) (isDynamic : Bool) : Exec μ κ (Option Str) :=
  if isDynamic then do
    let value ← popAssert StackField.stack
    pure value.getString
  else
    match opcode.op2 with
    | .long longval => pure (some (formatLong longval))
    | .string string => pure (some string)
    | .null _ => pure none
    | _ => Proc.abort

/-- The registered partial, or the enclosing partial block. -/
def findPartial (env : Env μ κ) (name : Option Str) : Exec μ κ (Option (Value μ)) :=
  match name with
  | none => pure none
  | some name => do
    match ← mapFind env.platform (← readVm Vm.partials) name with
    | some found => pure (some found)
    | none =>
      if name = bytes "@partial-block" then do
        let stack ← stackOf StackField.partialBlockStack
        pure (stack.top.map PartialBlock.value)
      else pure none

/-- `merge_hash` -/
def mergeHash (env : Env μ κ) (input : Value μ) (hash : Option (Value μ)) :
    Exec μ κ (Value μ) :=
  match hash with
  | none => pure input
  | some hash =>
    if input.type = .map ∧ input.count > 0 ∧ hash.type = .map ∧ hash.count > 0 then do
      let entries ← copyEntries env.platform input []
      let entries ← copyEntries env.platform hash entries
      let addr ← allocate
      pure (.map addr entries)
    else if input.type = .null then pure hash
    else pure input

/-- The block of the partial, which closes over the height of the stack it goes on. -/
def newPartialBlock (program : Int) : Exec μ κ (PartialBlock μ) := do
  let module ← nonnull (← readVm Vm.module)
  let addr ← allocate
  let moduleAddr ← allocate
  let stack ← stackOf StackField.partialBlockStack
  pure ⟨addr, moduleAddr, module, program, stack.count⟩

/-- A string partial becomes a closure over `execute_template`. -/
def wrapPartial (value : Value μ) (indent : Str) : Exec μ κ (Value μ) :=
  match value with
  | .string val _ => do
    let flags ← readVm Vm.flags
    let addr ← allocate
    pure (.closure addr .partialString
      [.string val false, if flags.has Flag.compat then .string indent false else .null])
  | value => pure value

/-- Calls the partial and appends what it returns. -/
def callPartial (env : Env μ κ) (rec : Rec μ κ) (name : Option Str) (value : Value μ)
    (indent : Str) (argv : List (Value μ)) (options : Options μ) : Exec μ κ Unit := do
  let value ← wrapPartial value indent
  if value.isCallable then do
    let result ← rec.valueCall value argv options
    let buffer := result.expression env.platform false
    let flags ← readVm Vm.flags
    appendBuffer (if flags.has Flag.compat then buffer else indentText buffer indent)
  else raiseError (bytes "The partial " ++ name.getD (bytes "(nil)") ++
    bytes " was not a string, was " ++ value.realType.readable)

/-- What is called for a partial; in `compat` mode a missing one is left out. -/
def choosePartial (found : Option (Value μ)) (name : Option Str) (program : Int)
    (block : Option (PartialBlock μ)) : Exec μ κ (Option (Value μ)) :=
  match found with
  | some found => pure (some found)
  | none =>
    if program ≥ 0 then pure (some ((block.map PartialBlock.value).getD .null))
    else do
      let flags ← readVm Vm.flags
      if flags.has Flag.compat then pure none
      else raiseError (bytes "The partial " ++ name.getD (bytes "(NULL)") ++
        bytes " could not be found")

/-- From `merge_hash` on. -/
def invokePartial (env : Env μ κ) (rec : Rec μ κ) (name : Option Str) (indent : Str)
    (options : Options μ) (argv : List (Value μ)) (found : Option (Value μ))
    (block : Option (PartialBlock μ)) : Exec μ κ Unit := do
  let input ← mergeHash env (argv.head?.getD .null) options.hash
  match ← choosePartial found name options.program block with
  | some value => callPartial env rec name value indent [input] options
  | none => pure ()

/-- `accept_invoke_partial` -/
def acceptInvokePartial (env : Env μ κ) (rec : Rec μ κ) (opcode : Opcode) : Exec μ κ Unit := do
  let isDynamic ← nonnull opcode.op1.boolval?
  let indent ← nonnull opcode.op3.string?
  let (options, argv) ← setupOptions 1 none
  let name ← partialName opcode isDynamic
  let found ← findPartial env name
  if options.program > 0 then do
    let block ← newPartialBlock options.program
    withPartialBlock block (invokePartial env rec name indent options argv found (some block))
  else invokePartial env rec name indent options argv found none

/-- `sscanf(string, "%ld", &value)` into a variable that is -1. -/
def scanBlockParam (text : Str) : Int :=
  match scanLong text with
  | .number value => value
  | _ => -1

/-- The loop of `lookup_block_param` over the later parts: the last one found. -/
def followParts (platform : Platform) (value : Value μ) : List Str → Exec μ κ (Value μ)
  | [] => pure value
  | part :: rest => do
    match ← mapFind platform value part with
    | some found => followParts platform found rest
    | none => pure value

/-- The entry of the block parameter stack that `lookup_block_param` reads. -/
def blockParamEntry (stack : Stack (Value μ)) (blockParam1 : Int) : Option (Value μ) :=
  if blockParam1 < 0 then none else stack.get blockParam1.toNat

/-- The element of an entry. -/
def blockParamValue (entry : Option (Value μ)) (blockParam2 : Int) :
    Exec μ κ (Option (Value μ)) :=
  match entry with
  | some v1 => if v1.type = .array then arrayFind v1 blockParam2 else pure none
  | none => pure none

/-- `accept_lookup_block_param` -/
def acceptLookupBlockParam (env : Env μ κ) (opcode : Opcode) : Exec μ κ Unit := do
  let parts ← nonnull opcode.op2.array?
  match opcode.op1 with
  | .array (first :: second :: _) => do
    let stack ← stackOf StackField.blockParamStack
    match ← blockParamValue (blockParamEntry stack (scanBlockParam first))
        (scanBlockParam second) with
    | some v2 => do
      let value ← followParts env.platform v2 parts.tail
      push StackField.stack value
    | none => push StackField.stack .null
  | _ => Proc.abort

/-- The error of the lookups. -/
def notDefined (part : Str) (loc : LocInfo) : Error :=
  ⟨.error, bytes "\"" ++ part ++ bytes "\" not defined in object", loc⟩

/-- `_parent` followed `depth` times where it is there. -/
def parentData (platform : Platform) : Nat → Value μ → Exec μ κ (Value μ)
  | 0, data => pure data
  | depth + 1, data => do
    let found ← mapFind platform data (bytes "_parent")
    parentData platform depth (found.getD data)

/-- The first part of a data path; NULL where it is not there. -/
def firstData (env : Env μ κ) (data : Value μ) (first : Str) : Exec μ κ (Option (Value μ)) := do
  match ← mapFind env.platform data first with
  | some found => pure (some found)
  | none =>
    if first = bytes "root" then do
      let context ← topContext
      pure (some context)
    else if first = bytes "partial-block" then do
      let stack ← stackOf StackField.partialBlockStack
      let block ← nonnull stack.top
      pure (some block.value)
    else pure none

/-- The later parts of a data path; NULL for the error of a strict lookup. -/
def laterData (env : Env μ κ) (isStrict : Bool) : List Str → Value μ →
    Exec μ κ (Option (Value μ))
  | [], value => pure (some value)
  | part :: rest, value => do
    match ← (if value.type = .map then mapFind env.platform value part else pure none) with
    | some found => laterData env isStrict rest found
    | none => if isStrict then pure none else laterData env isStrict rest value

/-- `accept_lookup_data`. The depth is a `long` that is counted down to 0. -/
def acceptLookupData (env : Env μ κ) (opcode : Opcode) : Exec μ κ Unit := do
  let depth ← nonnull opcode.op1.longval?
  let parts ← nonnull opcode.op2.array?
  let terminal ← nonnull opcode.op3.boolval?
  let first ← nonnull parts.head?
  let vm ← readVm id
  let isStrict := vm.flags.has Flag.strict || vm.flags.has Flag.assumeObjects
  let requireTerminal := vm.flags.has Flag.strict && terminal
  let data ← parentData env.platform depth.toNat vm.data
  match ← firstData env data first with
  | some value =>
    match ← laterData env (isStrict || requireTerminal) parts.tail value with
    | some value =>
      if value.realType = .null ∧ requireTerminal then raise (notDefined first opcode.loc)
      else push StackField.stack value
    | none => raise (notDefined first opcode.loc)
  | none =>
    if vm.flags.has Flag.assumeObjects || requireTerminal then raise (notDefined first opcode.loc)
    else push StackField.stack .null

/-- `accept_push_context` -/
def acceptPushContext : Exec μ κ Unit := do
  let cell ← nonnull (← readVm Vm.lastContext)
  push StackField.stack cell.value

/-- `depthed_lookup`: pushes the innermost context that has the key. -/
def depthedLookup (env : Env μ κ) (key : Str) : Exec μ κ Unit := do
  let stack ← stackOf StackField.contextStack
  let found ← search stack.v
  push StackField.stack (found.getD .null)
where
  search : List (Value μ) → Exec μ κ (Option (Value μ))
    | [] => pure none
    | value :: rest =>
      if value.type = .map then do
        match ← mapFind env.platform value key with
        | some _ => pure (some value)
        | none => search rest
      else search rest

/-- How the walk of `lookup_on_context` ended. -/
inductive Walked (μ : Type) where
  | found (value : Value μ)
  | missing (part : Str)
  | err (part : Str)

/-- The element an index names; `index` keeps its value when `sscanf` is at the end. -/
def findIndex (index : Int) (part : Str) (value : Value μ) :
    Exec μ κ (Int × Option (Value μ)) :=
  match scanLong part with
  | .number number => do
    let found ← arrayFind value number
    pure (number, found)
  | .eof => do
    let found ← arrayFind value index
    pure (index, found)
  | .mismatch => pure (index, none)

/-- The loop of `lookup_on_context`. -/
def walkContext (env : Env μ κ) (isStrict assumeObjects : Bool) :
    Int → List Str → Value μ → Exec μ κ (Walked μ)
  | _, [], value => pure (.found value)
  | index, part :: rest, value =>
    if value.type = .map then do
      match ← mapFind env.platform value part with
      | some found => walkContext env isStrict assumeObjects index rest found
      | none => pure (if isStrict && !rest.isEmpty then .err part else .missing part)
    else if value.type = .array then do
      let (index, found) ← findIndex index part value
      match found with
      | some found => walkContext env isStrict assumeObjects index rest found
      | none => pure (if isStrict && !rest.isEmpty then .err part else .missing part)
    else pure (if assumeObjects && rest.isEmpty then .err part else .missing part)

/-- Pushes the value that `lookup_on_context` starts from. -/
def pushRoot (env : Env μ κ) (isDepthed : Bool) (first : Str) : Exec μ κ Unit :=
  if isDepthed then depthedLookup env first else acceptPushContext

/-- `accept_lookup_on_context` -/
def acceptLookupOnContext (env : Env μ κ) (opcode : Opcode) : Exec μ κ Unit := do
  let parts ← nonnull opcode.op1.array?
  let terminal ← nonnull opcode.op3.boolval?
  let isScoped ← nonnull opcode.op4.boolval?
  let first ← nonnull parts.head?
  let flags ← readVm Vm.flags
  let isStrict := flags.has Flag.strict || flags.has Flag.assumeObjects
  let requireTerminal := flags.has Flag.strict && terminal
  pushRoot env (!isScoped && flags.has Flag.compat) first
  let value ← popAssert StackField.stack
  match ← walkContext env isStrict (flags.has Flag.assumeObjects) (-1) parts value with
  | .found value => push StackField.stack value
  | .missing part =>
    if requireTerminal then raise (notDefined part opcode.loc) else push StackField.stack .null
  | .err part => raise (notDefined part opcode.loc)

/-- `accept_pop_hash` -/
def acceptPopHash : Exec μ κ Unit := do
  let hash ← popAssert StackField.hashStack
  push StackField.stack hash

/-- `accept_push_hash` -/
def acceptPushHash : Exec μ κ Unit := do
  let addr ← allocate
  push StackField.hashStack (.map addr [])

/-- `accept_push_program` -/
def acceptPushProgram (opcode : Opcode) : Exec μ κ Unit :=
  push StackField.stack (.integer (opcode.op1.longval?.getD (-1)))

/-- The value of `push_literal`. -/
def literalValue : Operand → Option (Value μ)
  | .string string =>
    if string = bytes "undefined" ∨ string = bytes "null" then some .null
    else some (.string string false)
  | .boolean boolval => some (.boolean boolval)
  | .long longval => some (.integer longval)
  | .null _ => some .null
  | .array _ => none

/-- `accept_push_literal` -/
def acceptPushLiteral (opcode : Opcode) : Exec μ κ Unit := do
  let value ← nonnull (literalValue opcode.op1)
  push StackField.stack value

/-- `accept_push_string` -/
def acceptPushString (opcode : Opcode) : Exec μ κ Unit := do
  let string ← nonnull opcode.op1.string?
  push StackField.stack (.string string false)

/-- `accept_resolve_possible_lambda`: its options are zeroed, so both programs are 0. -/
def acceptResolvePossibleLambda (rec : Rec μ κ) : Exec μ κ Unit := do
  let value ← popAssert StackField.stack
  if value.isCallable then do
    let scope ← topContext
    let result ← rec.valueCall value [scope]
      { name := none, hash := none, scope := scope, data := none, inverse := 0, program := 0 }
    push StackField.stack result
  else push StackField.stack value

/-- One dispatch of `handlebars_vm_accept`, `return` apart. -/
def acceptOpcode (env : Env μ κ) (rec : Rec μ κ) (opcode : Opcode) : Exec μ κ Unit :=
  match opcode.type with
  | .ambiguousBlockValue => acceptAmbiguousBlockValue env rec
  | .append => acceptAppend env
  | .appendEscaped => acceptAppendEscaped env
  | .appendContent => acceptAppendContent opcode
  | .assignToHash => acceptAssignToHash env opcode
  | .blockValue => acceptBlockValue env rec opcode
  | .getContext => acceptGetContext opcode
  | .emptyHash => acceptEmptyHash
  | .invokeAmbiguous => acceptInvokeAmbiguous env rec opcode
  | .invokeHelper => acceptInvokeHelper env rec opcode
  | .invokeKnownHelper => acceptInvokeKnownHelper env rec opcode
  | .invokePartial => acceptInvokePartial env rec opcode
  | .lookupBlockParam => acceptLookupBlockParam env opcode
  | .lookupData => acceptLookupData env opcode
  | .lookupOnContext => acceptLookupOnContext env opcode
  | .popHash => acceptPopHash
  | .pushContext => acceptPushContext
  | .pushHash => acceptPushHash
  | .pushProgram => acceptPushProgram opcode
  | .pushLiteral => acceptPushLiteral opcode
  | .pushString => acceptPushString opcode
  | .resolvePossibleLambda => acceptResolvePossibleLambda rec
  | other => raiseError (bytes "Unhandled opcode: " ++ opcodeReadableType other ++ [10])

end Exec

end HandlebarsC
