import HandlebarsC.Compiler.Visits
import HandlebarsC.Vm.Conditional
import HandlebarsC.Vm.Elements
import HandlebarsC.Vm.Scopes

/-!
What a template means: the text that a syntax tree stands for in a scope, said without
programs, opcodes and stacks. Partials, decorators and registered helpers are left out, and
values are those the library builds itself, not JSON behind a user value.
-/

namespace HandlebarsC

open Exec (Walked notDefined eachKey eachData)

/-- What a template means: it may have no value. -/
abbrev Meaning := Except Failure

namespace Render

variable {μ : Type}

/-- What a template is rendered with: the options of the compiler and the flags of the VM. -/
structure Mode where
  platform : Platform
  compileFlags : Flags
  knownHelpers : List Str
  flags : Flags

/-- What a part of a template sees, the innermost first: the contexts around it, the data, the
block parameters, and the maps that are being iterated. -/
structure Scope (μ : Type) where
  contexts : List (Value μ)
  data : StrMap (Value μ)
  blockParams : List (List (Value μ))
  iterating : List Nat

/-- What a block is for its helper: a text for each scope. -/
abbrev Body (μ : Type) := Scope μ → Meaning Str

/-- A block that is not there. -/
def noBody : Body μ := fun _ => pure []

def fail (msg : Str) : Meaning α := .error (.error ⟨.error, msg, LocInfo.zero⟩)

namespace Scope

def this (scope : Scope μ) : Value μ := scope.contexts.headD .null

/-- The context so many levels out. -/
def context (scope : Scope μ) (depth : Nat) : Value μ := (scope.contexts[depth]?).getD .null

/-- The scope of a block. -/
def enter (platform : Platform) (scope : Scope μ) (context : Value μ)
    (data : Option (StrMap (Value μ))) (blockParams : Option (List (Value μ))) : Scope μ where
  contexts := Scopes.withContext platform context scope.contexts
  data := data.getD scope.data
  blockParams := blockParams.toList ++ scope.blockParams
  iterating := scope.iterating

end Scope

section Paths

variable (platform : Platform)

def entry : Value μ → Str → Option (Value μ)
  | .map _ entries, key => StrMap.find platform.hash entries key
  | _, _ => none

def element : Value μ → Int → Option (Value μ)
  | .array _ items, index => if index < 0 then none else items[index.toNat]?
  | _, _ => none

/-- Into the members that are there. -/
def follow (value : Value μ) : List Str → Value μ
  | [] => value
  | part :: rest =>
    match entry platform value part with
    | some found => follow found rest
    | none => value

/-- The element that a segment names. A blank one names the index of the segment before it. -/
def indexed (index : Int) (part : Str) (value : Value μ) : Int × Option (Value μ) :=
  match scanLong part with
  | .number number => (number, element value number)
  | .eof => (index, element value index)
  | .mismatch => (index, none)

/-- A path from a context on. -/
def walk (isStrict assumeObjects : Bool) : Int → List Str → Value μ → Walked μ
  | _, [], value => .found value
  | index, part :: rest, value =>
    if value.type = .map then
      match entry platform value part with
      | some found => walk isStrict assumeObjects index rest found
      | none => if isStrict && !rest.isEmpty then .err part else .missing part
    else if value.type = .array then
      match indexed index part value with
      | (index, some found) => walk isStrict assumeObjects index rest found
      | (_, none) => if isStrict && !rest.isEmpty then .err part else .missing part
    else if assumeObjects && rest.isEmpty then .err part else .missing part

/-- The data so many parents out, as far as there are parents. -/
def outerData : Nat → StrMap (Value μ) → StrMap (Value μ)
  | 0, data => data
  | depth + 1, data =>
    match StrMap.find platform.hash data (bytes "_parent") with
    | some (.map _ entries) => outerData depth entries
    | some _ => []
    | none => outerData depth data

/-- A data path behind its first segment. -/
def dataRest (isStrict : Bool) : List Str → Value μ → Option (Value μ)
  | [], value => some value
  | part :: rest, value =>
    match entry platform value part with
    | some found => dataRest isStrict rest found
    | none => if isStrict then none else dataRest isStrict rest value

end Paths

variable (mode : Mode)

def undefinedName (part : Str) (loc : LocInfo) : Meaning α := .error (.error (notDefined part loc))

/-- The first segment of a data path. -/
def dataStart (scope : Scope μ) (data : StrMap (Value μ)) (first : Str) :
    Meaning (Option (Value μ)) :=
  match StrMap.find mode.platform.hash data first with
  | some found => pure (some found)
  | none =>
    if first = bytes "root" then pure (some scope.this)
    else if first = bytes "partial-block" then .error .crash
    else pure none

/-- A path that starts with `@` -/
def dataValue (scope : Scope μ) (path : PathNode) (first : Str) (rest : List Str) :
    Meaning (Value μ) := do
  let isStrict := mode.flags.has Flag.strict || mode.flags.has Flag.assumeObjects
  let requireTerminal := mode.flags.has Flag.strict && path.strict
  match ← dataStart mode scope (outerData mode.platform path.depth scope.data) first with
  | some value =>
    match dataRest mode.platform (isStrict || requireTerminal) rest value with
    | some value =>
      if value.realType = .null ∧ requireTerminal then undefinedName first path.loc else pure value
    | none => undefinedName first path.loc
  | none =>
    if mode.flags.has Flag.assumeObjects || requireTerminal then undefinedName first path.loc
    else pure .null

/-- Where a path starts: in `compat` mode at the innermost context that has its first segment. -/
def pathRoot (scope : Scope μ) (path : PathNode) (first : Str) : Value μ :=
  if !path.scopedId && mode.flags.has Flag.compat then
    (scope.contexts.find? fun value => (entry mode.platform value first).isSome).getD .null
  else scope.context path.depth

def contextValue (scope : Scope μ) (path : PathNode) (first : Str) : Meaning (Value μ) :=
  let assumeObjects := mode.flags.has Flag.assumeObjects
  match walk mode.platform (mode.flags.has Flag.strict || assumeObjects) assumeObjects (-1)
      path.parts (pathRoot mode scope path first) with
  | .found value => pure value
  | .missing part =>
    if mode.flags.has Flag.strict && path.strict then undefinedName part path.loc else pure .null
  | .err part => undefinedName part path.loc

/-- The value of a block parameter, and what is inside it. -/
def blockParamValue (scope : Scope μ) (depth number : Nat) (rest : List Str) : Value μ :=
  match scope.blockParams[depth]?.bind (·[number]?) with
  | some value => follow mode.platform value rest
  | none => .null

def pathValue (names : List BlockParamPair) (scope : Scope μ) (path : PathNode) :
    Meaning (Value μ) :=
  match Compiler.pathBlockParam mode.platform names path with
  | some (depth, number) => pure (blockParamValue mode scope depth number path.parts.tail)
  | none =>
    match path.parts with
    | [] => pure (scope.context path.depth)
    | first :: rest =>
      if path.data then dataValue mode scope path first rest else contextValue mode scope path first

/-- A literal that is written as its text. -/
def textLiteral (value : Str) : Value μ :=
  if value = bytes "undefined" ∨ value = bytes "null" then .null else .string value false

def literalValue (platform : Platform) (type : LiteralType) (value : Str) : Value μ :=
  match type with
  | .boolean => .boolean (value != bytes "false")
  | .number =>
    if value = bytes "0" then .integer 0
    else (platform.numberLong value).elim (textLiteral value) .integer
  | .nul | .undefined => .null
  | .string => .string value false

def nameValue (names : List BlockParamPair) (scope : Scope μ) : HelperName → Meaning (Value μ)
  | .path path => pathValue mode names scope path
  | .literal type _ value => pure (literalValue mode.platform type value)

section Builtins

/-- What a helper is called with. -/
structure Invocation (μ : Type) where
  name : Option Str
  args : List (Value μ)
  hash : StrMap (Value μ)
  program : Body μ
  inverse : Body μ

variable (scope : Scope μ) (call : Invocation μ)

/-- A block in the scope around it. -/
def Scope.plain (platform : Platform) : Scope μ := scope.enter platform scope.this none none

/-- The loop of `#each`. -/
def eachText (last : Nat) :
    Nat → StrMap (Value μ) → List (Option Str × Value μ) → Meaning Str
  | _, _, [] => pure []
  | index, data, (key, value) :: rest => do
    let data := eachData mode.platform data index last (eachKey index key)
    let text ← call.program
      (scope.enter mode.platform value (some data) (some [value, eachKey index key]))
    let others ← eachText last (index + 1) data rest
    pure (text ++ others)

/-- The scope while a map is iterated, which it must not be already. -/
def Scope.iterate : Value μ → Meaning (Scope μ)
  | .map addr (_ :: _) =>
    if scope.iterating.contains addr then .error .crash
    else pure { scope with iterating := addr :: scope.iterating }
  | _ => pure scope

def eachBlock (context : Value μ) : Meaning Str := do
  match Exec.elements context with
  | [] => call.inverse (scope.plain mode.platform)
  | elements =>
    let scope ← scope.iterate context
    eachText mode scope call (elements.length - 1) 0
      (StrMap.updateAll mode.platform.hash [] scope.data) elements

def ifBlock (argument : Value μ) : Meaning Str :=
  (if Exec.chosen mode.platform call.hash argument then call.program else call.inverse)
    (scope.plain mode.platform)

def withBlock (argument : Value μ) : Meaning Str :=
  if argument.type = .null then
    call.inverse (scope.enter mode.platform argument none none)
  else
    call.program (scope.enter mode.platform argument (some scope.data) (some [argument]))

/-- A block whose name is a value and not a helper. -/
def valueBlock (value : Value μ) : Meaning Str :=
  if value.type = .true then call.program (scope.plain mode.platform)
  else if value.isEmpty ∧ ¬(value.type = .integer ∧ value.intval = 0) then
    call.inverse (scope.plain mode.platform)
  else if value.type = .array then eachBlock mode scope call value
  else call.program (scope.enter mode.platform value none none)

def lookupValue (context field : Value μ) : Meaning (Value μ) :=
  if context.type = .map then
    pure ((entry mode.platform context (field.toText mode.platform)).getD .null)
  else if context.type = .array ∧ field.type = .integer then
    match element context field.intval with
    | some found => pure found
    | none => .error .crash
  else pure .null

def textValue (text : Meaning Str) : Meaning (Value μ) := do
  let text ← text
  pure (.string text false)

/-- The built-in helpers. -/
def callBuiltin (builtin : Builtin) : Meaning (Value μ) :=
  match builtin, call.args with
  | .blockHelperMissing, [] => textValue (call.inverse (scope.plain mode.platform))
  | .blockHelperMissing, value :: _ => textValue (valueBlock mode scope call value)
  | .helperMissing, [] => pure .null
  | .helperMissing, _ :: _ =>
    match call.name with
    | some name => fail (bytes "Missing helper: \"" ++ name ++ bytes "\"")
    | none => .error .crash
  | .each, [] => fail (bytes "Must pass iterator to #each")
  | .each, argument :: _ => textValue (eachBlock mode scope call argument)
  | .ifHelper, [argument] => textValue (ifBlock mode scope call argument)
  | .ifHelper, _ => fail (bytes "#if requires exactly one argument")
  | .unless, [argument] => textValue (ifBlock mode scope call (.boolean argument.isEmpty))
  | .unless, _ => fail (bytes "#unless requires exactly one argument")
  | .with, [argument] => textValue (withBlock mode scope call argument)
  | .with, _ => fail (bytes "#with requires exactly one argument")
  | .log, args => if Exec.dumpsItems scope.iterating 0 args then pure .null else .error .crash
  | .lookup, context :: field :: _ => lookupValue mode context field
  | .lookup, _ => fail (bytes "lookup requires two parameters")
  | .setDelimiters, _ => pure .null

end Builtins

section Expressions

variable (names : List BlockParamPair)

/-- A compiler with the options of the mode, among these block parameters. -/
def Mode.compiler : Compiler :=
  { flags := mode.compileFlags, knownHelpers := mode.knownHelpers, bps := some names }

def kind (path : PathNode) (isHelperExpression : Bool) : SexprType :=
  Compiler.classifySexpr mode.platform (mode.compiler names) path isHelperExpression

def unhandled (type : OpcodeType) : Meaning α :=
  fail (bytes "Unhandled opcode: " ++ opcodeReadableType type ++ [10])

/-- A parameter or a value of a hash, which two options replace by opcodes of their own. -/
def argument (value : Meaning (Value μ)) : Meaning (Value μ) :=
  if mode.compileFlags.has Flag.stringParams then unhandled .pushStringParam
  else if mode.compileFlags.has Flag.trackIds then unhandled .pushId
  else value

/-- The built-in helper of a simple path, which is looked up by all of its text. -/
def namedBuiltin (path : PathNode) : Builtin :=
  ((if path.simpleId then path.original.bind builtinsFind else none)).getD .helperMissing

variable (scope : Scope μ) (loc : LocInfo) (path : PathNode)

/-- A helper of a known name, or one that is most likely missing. -/
def helperValue (args : List (Value μ)) (hash : StrMap (Value μ)) (program inverse : Body μ) :
    Meaning (Value μ) :=
  let name := path.idPart.getD []
  if (mode.compiler names).isKnownHelper path then
    match builtinsFind name with
    | some builtin => callBuiltin mode scope ⟨some name, args, hash, program, inverse⟩ builtin
    | none => .error (.error ⟨.error, bytes "Invalid known helper: " ++ name, loc⟩)
  else do
    let _ ← pathValue mode names scope { path with falsy := true, strict := true }
    callBuiltin mode scope ⟨path.original, args, hash, program, inverse⟩ (namedBuiltin path)

variable (args : Meaning (List (Value μ))) (hash : Meaning (StrMap (Value μ)))

def callHelper (program inverse : Body μ) : Meaning (Value μ) := do
  let args ← args
  let hash ← hash
  helperValue mode names scope loc path args hash program inverse

/-- An expression that is not a block. -/
def expression (isHelperExpression : Bool) : Meaning (Value μ) :=
  match kind mode names path isHelperExpression with
  | .helper => callHelper mode names scope loc path args hash noBody noBody
  | _ => pathValue mode names scope { path with strict := true }

/-- What is written for a block. -/
def blockText (isHelperExpression : Bool) (program inverse : Body μ) : Meaning Str := do
  let value ← match kind mode names path isHelperExpression with
    | .helper => callHelper mode names scope loc path args hash program inverse
    | _ => do
      let value ← pathValue mode names scope { path with strict := true }
      callBuiltin mode scope ⟨none, [value], [], program, inverse⟩ .blockHelperMissing
  pure (value.expression mode.platform false)

end Expressions

mutual

def paramValue (names : List BlockParamPair) (scope : Scope μ) : Param → Meaning (Value μ)
  | .name name => nameValue mode names scope name
  | .sexpr loc path params hash =>
    expression mode names scope loc path.toPath (paramValues names scope params)
      (hashValues names scope hash) true

def paramValues (names : List BlockParamPair) (scope : Scope μ) :
    List Param → Meaning (List (Value μ))
  | [] => pure []
  | param :: rest => do
    let value ← argument mode (paramValue names scope param)
    let values ← paramValues names scope rest
    pure (value :: values)

/-- The values are put into the hash from the last one on. -/
def hashValues (names : List BlockParamPair) (scope : Scope μ) :
    Option HashNode → Meaning (StrMap (Value μ))
  | none => pure []
  | some hash => do
    let pairs ← hashPairs names scope hash
    pure (StrMap.updateAll mode.platform.hash [] pairs.reverse)

def hashPairs (names : List BlockParamPair) (scope : Scope μ) :
    HashNode → Meaning (List (Str × Value μ))
  | .mk _ pairs => pairValues names scope pairs

def pairValues (names : List BlockParamPair) (scope : Scope μ) :
    List HashPair → Meaning (List (Str × Value μ))
  | [] => pure []
  | .mk key value :: rest => do
    let value ← argument mode (paramValue names scope value)
    let values ← pairValues names scope rest
    pure ((key, value) :: values)

end

mutual

def statementText (names : List BlockParamPair) : Statement → Body μ
  | .block loc path params hash program inverse _ => fun scope =>
    blockText mode names scope loc path.toPath (paramValues mode names scope params)
      (hashValues mode names scope hash) (Compiler.hasArguments params hash)
      (nodeOptionText names program) (nodeOptionText names inverse)
  | .rawBlock loc path params hash program inverse => fun scope =>
    blockText mode names scope loc path.toPath (paramValues mode names scope params)
      (hashValues mode names scope hash) (Compiler.hasArguments params hash)
      (nodeOptionText names program) (nodeOptionText names inverse)
  | .mustache loc path params hash unescaped _ => fun scope => do
    let value ← expression mode names scope loc path.toPath (paramValues mode names scope params)
      (hashValues mode names scope hash) (Compiler.hasArguments params hash)
    pure (value.expression mode.platform
      (!unescaped && !mode.compileFlags.has Flag.noEscape))
  | .content _ value => fun _ => pure value
  | .comment _ => noBody
  | .partialCall .. | .partialBlock .. => fun _ => .error .crash

def statementsText (names : List BlockParamPair) : List Statement → Body μ
  | [] => noBody
  | statement :: rest => fun scope => do
    let text ← statementText names statement scope
    let others ← statementsText names rest scope
    pure (text ++ others)

def nodeText (names : List BlockParamPair) : ProgramNode → Body μ
  | .mk _ _ statements blockParam1 blockParam2 =>
    statementsText (⟨blockParam1, blockParam2⟩ :: names) statements

def nodeOptionText (names : List BlockParamPair) : Option ProgramNode → Body μ
  | none => noBody
  | some node => nodeText names node

end

/-- The text of a template in a context. -/
def render (node : ProgramNode) (context : Value μ) (data : StrMap (Value μ)) : Meaning Str :=
  nodeText mode [] node
    { contexts := [context], data := data, blockParams := [], iterating := [] }

end Render

end HandlebarsC
