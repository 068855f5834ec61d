import HandlebarsC.Core.Ast
import HandlebarsC.Core.Text
import HandlebarsC.Core.Program
import HandlebarsC.Foundation.Effect

/-!
`handlebars_compiler.c`: a syntax tree is translated into a tree of programs.
The parts of a node that are compiled by recursion come in as procedures, so
that every acceptor below the last two groups is an ordinary definition.
-/

namespace HandlebarsC

open Effect

/-- `struct handlebars_block_param_pair` -/
structure BlockParamPair where
  blockParam1 : Option Str
  blockParam2 : Option Str
  deriving DecidableEq, Repr

/-- A record of one path the compiler accepted: in which program, at which opcode,
and which block parameters were in scope. -/
structure PathUse where
  program : Program.Path
  index : Nat
  path : PathNode
  scopes : List BlockParamPair
  deriving DecidableEq, Repr

/-- `struct handlebars_compiler` with the program it is building. The two node
stacks have their innermost entry first and are NULL outside a compilation. The
last two fields record the paths accepted and the block parameters declared, by
the place of the program in the tree; the compiler does not read them. -/
structure Compiler where
  flags : Flags
  knownHelpers : List Str
  guid : Nat := 0
  resultFlags : Nat := 0
  blockParams : Nat := 0
  opcodes : List Opcode := []
  children : List Program := []
  decorators : List Program := []
  bps : Option (List BlockParamPair) := none
  sns : Option (List LocInfo) := none
  error : Option Error := none
  uses : List PathUse := []
  declared : List (Program.Path × BlockParamPair) := []

/-- The compiler logs nothing. -/
abbrev Compile := Proc Compiler Empty

/-- `enum handlebars_compiler_sexpr_type` -/
inductive SexprType where
  | ambig
  | helper
  | simple
  deriving DecidableEq, Repr

/-- `names` of `handlebars_helpers.c` -/
def builtinsNames : List Str :=
  ["blockHelperMissing", "helperMissing", "each", "if", "unless", "with", "log", "lookup",
    "hbsc_set_delimiters"].map bytes

namespace Compiler

/-- `HANDLEBARS_COMPILER_STACK_SIZE` -/
def stackSize : Nat := 64

def resultUseDepths : Nat := 1
def resultUsePartial : Nat := 2
def resultIsSimple : Nat := 4
def resultUseDecorators : Nat := 8

/-- The program as the compiler leaves it. -/
def program (compiler : Compiler) : Program :=
  .mk 0 compiler.flags compiler.resultFlags compiler.blockParams compiler.opcodes
    compiler.children compiler.decorators

def raise (error : Error) : Compile α := do
  Proc.write fun compiler => { compiler with error := some error }
  Proc.throw

/-- A string that must not be NULL. -/
def nonnull : Option Str → Compile Str
  | some string => pure string
  | none => Proc.abort

/-- The location an opcode gets: that of the innermost node. -/
def nodeLoc (compiler : Compiler) (opcode : Opcode) : LocInfo :=
  match compiler.sns with
  | some (loc :: _) => loc
  | _ => opcode.loc

/-- `handlebars_compiler_opcode` -/
def opcode (opcode : Opcode) : Compile Unit := Proc.write fun compiler =>
  { compiler with
    opcodes := compiler.opcodes ++ [opcode.place (compiler.nodeLoc opcode)] }

/-- `__OPN` -/
def opN (type : OpcodeType) : Compile Unit := opcode (opcodeCtor type)

/-- `__OPB` -/
def opB (type : OpcodeType) (arg : Bool) : Compile Unit :=
  opcode { opcodeCtor type with op1 := .boolean arg }

/-- `__OPL` -/
def opL (type : OpcodeType) (arg : Int) : Compile Unit :=
  opcode { opcodeCtor type with op1 := .long arg }

/-- `__OPS` -/
def opS (type : OpcodeType) (arg : Str) : Compile Unit :=
  opcode { opcodeCtor type with op1 := .string arg }

def addResultFlag (flag : Nat) : Compile Unit := Proc.write fun compiler =>
  { compiler with resultFlags := compiler.resultFlags ||| flag }

/-- `handlebars_compiler_add_depth` -/
def addDepth (depth : Nat) : Compile Unit := Proc.write fun compiler =>
  { compiler with
    resultFlags :=
      if depth > 0 then compiler.resultFlags ||| resultUseDepths else compiler.resultFlags }

def pairHas (platform : Platform) (declared : Option Str) (name : Str) : Bool :=
  match declared with
  | some blockParam => stringEq platform.hash blockParam name
  | none => false

/-- The loop of `handlebars_compiler_block_param_index`: depth and number. -/
def searchBlockParam (platform : Platform) (name : Str) :
    Nat → List BlockParamPair → Option (Nat × Nat)
  | _, [] => none
  | depth, pair :: rest =>
    if pairHas platform pair.blockParam1 name then some (depth, 0)
    else if pairHas platform pair.blockParam2 name then some (depth, 1)
    else searchBlockParam platform name (depth + 1) rest

/-- `handlebars_compiler_block_param_index` -/
def blockParamIndex (platform : Platform) (scopes : List BlockParamPair) :
    Option Str → Option (Nat × Nat)
  | none => none
  | some name => searchBlockParam platform name 0 scopes

/-- `handlebars_compiler_is_known_helper` -/
def isKnownHelper (compiler : Compiler) (path : PathNode) : Bool :=
  match path.idPart with
  | none => false
  | some name => builtinsNames.contains name || compiler.knownHelpers.contains name

/-- `handlebars_compiler_classify_sexpr`; `isHelperExpression` is what
`handlebars_ast_helper_helper_expression` says of the node. -/
def classifySexpr (platform : Platform) (compiler : Compiler) (path : PathNode)
    (isHelperExpression : Bool) : SexprType :=
  let isSimple := path.simpleId
  let isBlockParam := isSimple &&
    (blockParamIndex platform (compiler.bps.getD []) path.idPart).isSome
  let isHelper := !isBlockParam && isHelperExpression
  let isEligible := !isBlockParam && (isSimple || isHelper)
  if isHelper then .helper
  else if isEligible then
    if compiler.isKnownHelper path then .helper
    else if compiler.flags.has Flag.knownHelpersOnly then .simple
    else .ambig
  else .simple

/-- The prologue and epilogue of `handlebars_compiler_accept`. The array has
`stackSize` places, but the test lets one more entry through. -/
def located (loc : LocInfo) (body : Compile Unit) : Compile Unit := do
  match ← Proc.read Compiler.sns with
  | none => Proc.abort
  | some nodes =>
    if nodes.length > stackSize then
      raise ⟨.stackOverflow, bytes "Source node stack blown", LocInfo.zero⟩
    else if nodes.length = stackSize then Proc.abort
    else do
      Proc.write fun compiler => { compiler with sns := some (loc :: nodes) }
      body
      Proc.write fun compiler => { compiler with sns := compiler.sns.map List.tail }

def pushProgram (guid : Int) : Compile Unit :=
  if guid = -1 then opN .pushProgram else opL .pushProgram guid

/-- `push_program_pair` -/
def pushProgramPair (programGuid inverseGuid : Int) : Compile Unit := do
  pushProgram programGuid
  pushProgram inverseGuid

/-- The operands of a `lookup_block_param` that found its name. -/
def blockParamOperand (depth number : Nat) : Operand :=
  .array [decimal depth, decimal number]

/-- The `get_context` of `handlebars_compiler_accept_path`. -/
def pathContext (path : PathNode) : Opcode :=
  { opcodeCtor .getContext with op1 := .long path.depth }

/-- The lookup of `handlebars_compiler_accept_path`. -/
def pathLookup (path : PathNode) (found : Option (Nat × Nat)) : Opcode :=
  match found with
  | some (depth, number) =>
    { opcodeCtor .lookupBlockParam with
      op1 := blockParamOperand depth number
      op2 := .array path.parts }
  | none =>
    if path.idPart.isNone then opcodeCtor .pushContext
    else if path.data then
      { opcodeCtor .lookupData with
        op1 := .long path.depth
        op2 := .array path.parts
        op3 := if path.strict then .boolean true else .null false }
    else
      { opcodeCtor .lookupOnContext with
        op1 := .array path.parts
        op2 := if path.falsy then .boolean true else .null false
        op3 := if path.strict then .boolean true else .null false
        op4 := .boolean path.scopedId }

/-- The block parameter that a path starts with: depth and number. -/
def pathBlockParam (platform : Platform) (scopes : List BlockParamPair) (path : PathNode) :
    Option (Nat × Nat) :=
  if path.depth = 0 ∧ path.scopedId = false then blockParamIndex platform scopes path.idPart
  else none

def recordUse (path : PathNode) : Compile Unit := Proc.write fun compiler =>
  { compiler with
    uses := compiler.uses ++ [⟨[], compiler.opcodes.length, path, compiler.bps.getD []⟩] }

/-- `handlebars_compiler_accept_path` -/
def acceptPath (platform : Platform) (path : PathNode) : Compile Unit := do
  recordUse path
  addDepth path.depth
  opcode (pathContext path)
  let scopes ← Proc.read fun compiler => compiler.bps.getD []
  opcode (pathLookup path (pathBlockParam platform scopes path))

/-- `handlebars_compiler_accept_number` -/
def acceptNumber (platform : Platform) (value : Str) : Compile Unit :=
  if value = bytes "0" then opL .pushLiteral 0
  else match platform.numberLong value with
    | some long => opL .pushLiteral long
    | none => opS .pushLiteral value

/-- The acceptors of the literals. -/
def acceptLiteral (platform : Platform) (type : LiteralType) (value : Str) : Compile Unit :=
  match type with
  | .boolean => opB .pushLiteral (value != bytes "false")
  | .number => acceptNumber platform value
  | .nul => opS .pushLiteral (bytes "null")
  | .string => opS .pushString value
  | .undefined => opS .pushLiteral (bytes "undefined")

def acceptName (platform : Platform) : HelperName → Compile Unit
  | .path path => located path.loc (acceptPath platform path)
  | .literal type loc value => located loc (acceptLiteral platform type value)

def isSexpr : Param → Bool
  | .sexpr .. => true
  | .name _ => false

/-- `depth` of a parameter that is a path, else 0. -/
def paramDepth : Param → Nat
  | .name (.path path) => path.depth
  | _ => 0

/-- `handlebars_string_ltrim(string, "./")`, then every `/` becomes `.` -/
def stringParamText (string : Str) : Str :=
  (string.dropWhile fun char => char == 46 || char == 47).map fun char =>
    if char = 47 then 46 else char

/-- The `string_params` part of `handlebars_compiler_push_param`. -/
def pushStringParam (param : Param) (accept : Compile Unit) : Compile Unit := do
  addDepth (paramDepth param)
  opL .getContext (paramDepth param)
  let string ← nonnull param.stringModeValue
  let op1 := match param with
    | .name (.literal .boolean _ _) => Operand.boolean (string = bytes "true")
    | _ => Operand.string (stringParamText string)
  opcode { opcodeCtor .pushStringParam with op1 := op1, op2 := .string param.readableType }
  Proc.when (isSexpr param) accept

/-- What `push_id` keeps of a parameter's text. -/
def idText (string : Str) : Str :=
  let string :=
    if (bytes "this").isPrefixOf string then
      match string.drop 4 with
      | [] => []
      | next :: rest => if next = 46 ∨ next = 36 then rest else next :: rest
    else string
  if string = [46] then []
  else if [46, 47].isPrefixOf string then string.drop 2
  else string

/-- `handlebars_string_implode(".", parts)` -/
def implode (parts : List Str) : Str := (parts.intersperse [46]).flatten

def paramBlockParam (platform : Platform) (scopes : List BlockParamPair) :
    Param → Option (PathNode × Nat × Nat)
  | .name (.path path) => (pathBlockParam platform scopes path).map fun found => (path, found)
  | _ => none

/-- The `track_ids` part of `handlebars_compiler_push_param`. -/
def pushId (platform : Platform) (param : Param) : Compile Unit := do
  let scopes ← Proc.read fun compiler => compiler.bps.getD []
  match paramBlockParam platform scopes param with
  | some (path, depth, number) =>
    opcode { opcodeCtor .pushId with
      op1 := .string (bytes "BlockParam")
      op2 := blockParamOperand depth number
      op3 := .string (implode path.parts.tail) }
  | none =>
    let string ← nonnull param.stringModeValue
    let text := idText string
    let op2 := match param with
      | .name (.literal .boolean _ _) => Operand.boolean (text = bytes "true")
      | .name (.literal .number _ _) => Operand.long (platform.scanLong10 text)
      | _ => Operand.string text
    opcode { opcodeCtor .pushId with op1 := .string param.readableType, op2 := op2 }

/-- `handlebars_compiler_push_param`; `accept` is `handlebars_compiler_accept` of
the parameter. -/
def pushParam (platform : Platform) (param : Param) (accept : Compile Unit) : Compile Unit := do
  let flags ← Proc.read Compiler.flags
  if flags.has Flag.stringParams then pushStringParam param accept
  else do
    Proc.when (flags.has Flag.trackIds) (pushId platform param)
    accept

/-- A node's `params` and `hash`, as the procedures that compile them. -/
structure Arguments where
  count : Nat
  params : Compile Unit
  hash : Option (Compile Unit)

/-- `handlebars_compiler_setup_full_mustache_params` -/
def setupFullMustacheParams (arguments : Arguments) (programGuid inverseGuid : Int)
    (omitEmpty : Bool) : Compile Unit := do
  arguments.params
  pushProgramPair programGuid inverseGuid
  match arguments.hash with
  | some hash => hash
  | none => if omitEmpty then opB .emptyHash omitEmpty else opN .emptyHash

/-- `handlebars_compiler_accept_sexpr_helper` -/
def acceptSexprHelper (platform : Platform) (path : PathNode) (arguments : Arguments)
    (programGuid inverseGuid : Int) : Compile Unit := do
  setupFullMustacheParams arguments programGuid inverseGuid false
  let compiler ← Proc.read id
  if compiler.isKnownHelper path then do
    let name ← nonnull path.idPart
    opcode { opcodeCtor .invokeKnownHelper with
      op1 := .long arguments.count
      op2 := .string name }
  else if compiler.flags.has Flag.knownHelpersOnly then do
    let name ← nonnull path.idPart
    raise ⟨.unknownHelper,
      bytes "You specified knownHelpersOnly, but used the unknown helper " ++ name, path.loc⟩
  else do
    located path.loc (acceptPath platform { path with falsy := true, strict := true })
    let original ← nonnull path.original
    opcode { opcodeCtor .invokeHelper with
      op1 := .long arguments.count
      op2 := .string original
      op3 := .boolean path.simpleId }

/-- `handlebars_compiler_accept_sexpr_simple` -/
def acceptSexprSimple (platform : Platform) (path : PathNode) : Compile Unit := do
  located path.loc (acceptPath platform { path with strict := true })
  opN .resolvePossibleLambda

/-- `handlebars_compiler_accept_sexpr_ambiguous` -/
def acceptSexprAmbiguous (platform : Platform) (path : PathNode) (programGuid inverseGuid : Int)
    (printed : Option Str) : Compile Unit := do
  opL .getContext path.depth
  pushProgramPair programGuid inverseGuid
  located path.loc (acceptPath platform { path with strict := true })
  let flags ← Proc.read Compiler.flags
  let name ← nonnull path.idPart
  opcode { opcodeCtor .invokeAmbiguous with
    op1 := .string name
    op2 := .boolean (programGuid ≥ 0 || inverseGuid ≥ 0)
    op3 := if flags.has Flag.mustacheStyleLambdas then .string (printed.getD []) else .null false }

/-- `handlebars_compiler_accept_sexpr` -/
def acceptSexpr (platform : Platform) (path : PathNode) (arguments : Arguments)
    (isHelperExpression : Bool) : Compile Unit := do
  let compiler ← Proc.read id
  match classifySexpr platform compiler path isHelperExpression with
  | .helper => acceptSexprHelper platform path arguments (-1) (-1)
  | .simple => acceptSexprSimple platform path
  | .ambig => acceptSexprAmbiguous platform path (-1) (-1) none

/-- `handlebars_compiler_accept_hash`: the values go on the stack in order and come
off in reverse. -/
def acceptHash (keys : List Str) (values : Compile Unit) : Compile Unit := do
  opN .pushHash
  values
  keys.reverse.forM (opS .assignToHash)
  opN .popHash

/-- `params && handlebars_ast_list_count(params)`, or a hash -/
def Arguments.present (arguments : Arguments) : Bool :=
  arguments.hash.isSome || 0 < arguments.count

mutual

/-- `handlebars_compiler_accept` of a parameter -/
def acceptParam (platform : Platform) : Param → Compile Unit
  | .name name => acceptName platform name
  | .sexpr loc path params hash =>
    located loc (acceptSexpr platform path.toPath
      ⟨params.length, pushParams platform params, acceptHashOption platform hash⟩ true)

/-- `handlebars_compiler_push_params` -/
def pushParams (platform : Platform) : List Param → Compile Unit
  | [] => pure ()
  | param :: rest => do
    pushParam platform param (acceptParam platform param)
    pushParams platform rest

def acceptHashOption (platform : Platform) : Option HashNode → Option (Compile Unit)
  | none => none
  | some hash => some (acceptHashNode platform hash)

def acceptHashNode (platform : Platform) : HashNode → Compile Unit
  | .mk loc pairs => located loc (acceptHash (pairKeys pairs) (pushPairs platform pairs))

def pushPairs (platform : Platform) : List HashPair → Compile Unit
  | [] => pure ()
  | .mk _ value :: rest => do
    pushParam platform value (acceptParam platform value)
    pushPairs platform rest

def pairKeys : List HashPair → List Str
  | [] => []
  | .mk key _ :: rest => key :: pairKeys rest

end

def argumentsOf (platform : Platform) (params : List Param) (hash : Option HashNode) : Arguments :=
  ⟨params.length, pushParams platform params, acceptHashOption platform hash⟩

/-- A subcompiler, which shares the node stacks. -/
def subcompiler (compiler : Compiler) : Compiler :=
  { flags := compiler.flags, knownHelpers := compiler.knownHelpers
    bps := compiler.bps, sns := compiler.sns }

/-- The program of a subcompiler becomes the next child. -/
def adopt (compiler sub : Compiler) : Compiler :=
  { compiler with
    guid := compiler.guid + 1
    resultFlags := compiler.resultFlags ||| (sub.resultFlags &&& 7)
    children := compiler.children ++ [sub.program]
    uses := compiler.uses ++
      sub.uses.map fun use => { use with program := compiler.guid :: use.program }
    declared := compiler.declared ++
      sub.declared.map fun entry => (compiler.guid :: entry.1, entry.2) }

/-- Runs a compiler within another. -/
def within (sub : Compiler → Compiler) (body : Compile Unit)
    (finish fail : Compiler → Compiler → Compiler) : Compile Unit := fun compiler =>
  match (body (sub compiler)).1 with
  | .ok _ after => (.ok () (finish compiler after), [])
  | .thrown after => (.thrown { fail compiler after with error := after.error }, [])
  | .aborted _ => (.aborted compiler, [])
  | .exhausted _ => (.exhausted compiler, [])

def compileChild (node : Compile Unit) : Compile Unit :=
  within subcompiler node adopt fun compiler _ => compiler

/-- `handlebars_compiler_compile_program` -/
def compileProgram (node : Option (Compile Unit)) : Compile Int :=
  match node with
  | none => pure (-1)
  | some node => do
    let guid ← Proc.read Compiler.guid
    compileChild node
    pure guid

/-- The end of `handlebars_compiler_accept_decorator`. -/
def registerDecorator (original : Option Str) (arguments : Arguments)
    (programGuid inverseGuid : Int) : Compile Unit := do
  setupFullMustacheParams arguments programGuid inverseGuid false
  let original ← nonnull original
  opcode { opcodeCtor .registerDecorator with
    op1 := .long arguments.count
    op2 := .string original }

/-- Alternate decorators are compiled by a new compiler, without flags and node
stacks, into a program of their own. -/
def alternateDecorator (body : Compile Unit) : Compile Unit :=
  let keep := fun (compiler sub : Compiler) =>
    { compiler with decorators := compiler.decorators ++ [sub.program] }
  within (fun _ => { flags := 0, knownHelpers := builtinsNames }) body keep keep

/-- `handlebars_compiler_accept_decorator` -/
def acceptDecorator (original : Option Str) (arguments : Arguments)
    (programGuid inverseGuid : Int) : Compile Unit := do
  addResultFlag resultUseDecorators
  let flags ← Proc.read Compiler.flags
  if flags.has Flag.alternateDecorators then
    alternateDecorator (registerDecorator original arguments programGuid inverseGuid)
  else registerDecorator original arguments programGuid inverseGuid

/-- The call of a block by the kind of its expression. -/
def acceptBlockCall (platform : Platform) (path : PathNode) (arguments : Arguments)
    (programGuid inverseGuid : Int) (printed : Option Str) : SexprType → Compile Unit
  | .helper => acceptSexprHelper platform path arguments programGuid inverseGuid
  | .simple => do
    acceptSexprSimple platform path
    pushProgramPair programGuid inverseGuid
    opN .emptyHash
    let original ← nonnull path.original
    opS .blockValue original
  | .ambig => do
    acceptSexprAmbiguous platform path programGuid inverseGuid printed
    pushProgramPair programGuid inverseGuid
    opN .emptyHash
    opN .ambiguousBlockValue

/-- The part that `handlebars_compiler_accept_block` and `…_accept_raw_block` share. -/
def acceptBlockSexpr (platform : Platform) (path : PathNode) (arguments : Arguments)
    (programGuid inverseGuid : Int) (printed : Option Str) : Compile Unit := do
  let compiler ← Proc.read id
  acceptBlockCall platform path arguments programGuid inverseGuid printed
    (classifySexpr platform compiler path arguments.present)
  opN .append

/-- `handlebars_compiler_accept_block` -/
def acceptBlock (platform : Platform) (path : PathNode) (arguments : Arguments)
    (program inverse : Option (Compile Unit)) (printed : Option Str) (isDecorator : Bool) :
    Compile Unit := do
  let programGuid ← compileProgram program
  if isDecorator then acceptDecorator path.original arguments programGuid (-1)
  else do
    let inverseGuid ← compileProgram inverse
    acceptBlockSexpr platform path arguments programGuid inverseGuid printed

/-- `handlebars_compiler_accept_raw_block` -/
def acceptRawBlock (platform : Platform) (path : PathNode) (arguments : Arguments)
    (program inverse : Option (Compile Unit)) : Compile Unit := do
  let programGuid ← compileProgram program
  let inverseGuid ← compileProgram inverse
  acceptBlockSexpr platform path arguments programGuid inverseGuid none

/-- The path node that stands for a missing partial parameter. -/
def missingParam : Param :=
  .name (.path { loc := LocInfo.zero, original := none, parts := [], depth := 0, data := false })

/-- `op2` of `invoke_partial` -/
def partialNameOperand (platform : Platform) : Param → Compile Operand
  | .sexpr .. => pure (.null false)
  | .name (.literal .number _ value) =>
    match platform.numberLong value with
    | some long => pure (.long long)
    | none => pure (.string value)
  | .name name => do
    let string ← nonnull name.stringModeValue
    pure (.string string)

/-- The end of `_handlebars_compiler_accept_partial`. -/
def emitInvokePartial (platform : Platform) (name : Param) (isDynamic : Bool)
    (indent : Option Str) : Compile Unit := do
  let flags ← Proc.read Compiler.flags
  let text := indent.getD []
  let prevented := flags.has Flag.preventIndent && !text.isEmpty
  Proc.when prevented (opS .appendContent text)
  let op2 ← partialNameOperand platform name
  opcode { opcodeCtor .invokePartial with
    op1 := .boolean isDynamic
    op2 := op2
    op3 := .string (if prevented then [] else text) }
  opN .append

/-- The arguments of a partial call that has none of its own: its context. -/
def partialArguments (platform : Platform) (arguments : Arguments) (isExplicit : Bool) :
    Arguments :=
  if arguments.count = 0 ∧ isExplicit = false then
    { arguments with params := pushParam platform missingParam (acceptParam platform missingParam) }
  else arguments

/-- `_handlebars_compiler_accept_partial`. A missing parameter is pushed before the
dynamic name when it is `undefined`, and in its place when it is the context. -/
def acceptPartial (platform : Platform) (loc : LocInfo) (name : Param) (acceptName : Compile Unit)
    (arguments : Arguments) (program : Option (Compile Unit)) (indent : Option Str) :
    Compile Unit := do
  addResultFlag resultUsePartial
  let flags ← Proc.read Compiler.flags
  let isExplicit := flags.has Flag.explicitPartialContext
  if arguments.count > 1 then
    raise ⟨.unsupportedPartialArgs, bytes "Unsupported number of partial arguments", loc⟩
  else do
    Proc.when (arguments.count = 0 && isExplicit) (opS .pushLiteral (bytes "undefined"))
    Proc.when (isSexpr name) acceptName
    let programGuid ← compileProgram program
    setupFullMustacheParams (partialArguments platform arguments isExplicit) programGuid (-1) true
    emitInvokePartial platform name (isSexpr name) indent

/-- `handlebars_compiler_accept_content` -/
def acceptContent (value : Str) : Compile Unit :=
  if value.length > 0 then opS .appendContent value else pure ()

/-- `handlebars_compiler_accept_mustache` -/
def acceptMustache (platform : Platform) (path : HelperName) (arguments : Arguments)
    (unescaped isDecorator : Bool) : Compile Unit :=
  if isDecorator then acceptDecorator path.stringModeValue arguments (-1) (-1)
  else do
    acceptSexpr platform path.toPath arguments arguments.present
    let flags ← Proc.read Compiler.flags
    if !unescaped && !flags.has Flag.noEscape then opN .appendEscaped else opN .append

/-- `handlebars_compiler_accept_program` -/
def acceptProgram (blockParam1 blockParam2 : Option Str) (count : Nat)
    (statements : Compile Unit) : Compile Unit := do
  match ← Proc.read Compiler.bps with
  | none => Proc.abort
  | some pairs =>
    if pairs.length > stackSize then
      raise ⟨.stackOverflow, bytes "Block param stack blown", LocInfo.zero⟩
    else if pairs.length = stackSize then Proc.abort
    else do
      Proc.write fun compiler => { compiler with
        bps := some (⟨blockParam1, blockParam2⟩ :: pairs)
        declared := compiler.declared ++ [([], ⟨blockParam1, blockParam2⟩)] }
      statements
      Proc.write fun compiler => { compiler with bps := compiler.bps.map List.tail }
      Proc.when (count = 1) (addResultFlag resultIsSimple)
      Proc.write fun compiler => { compiler with
        blockParams := compiler.blockParams + blockParam1.toList.length +
          blockParam2.toList.length }

mutual

/-- `handlebars_compiler_accept` of a statement -/
def acceptStatement (platform : Platform) : Statement → Compile Unit
  | .block loc path params hash program inverse isDecorator =>
    located loc (acceptBlock platform path.toPath (argumentsOf platform params hash)
      (acceptNodeOption platform program) (acceptNodeOption platform inverse)
      (printedOption program) isDecorator)
  | .rawBlock loc path params hash program inverse =>
    located loc (acceptRawBlock platform path.toPath (argumentsOf platform params hash)
      (acceptNodeOption platform program) (acceptNodeOption platform inverse))
  | .mustache loc path params hash unescaped isDecorator =>
    located loc (acceptMustache platform path (argumentsOf platform params hash)
      unescaped isDecorator)
  | .partialCall loc name params hash indent =>
    located loc (acceptPartial platform loc name (acceptParam platform name)
      (argumentsOf platform params hash) none indent)
  | .partialBlock loc name params hash program =>
    located loc (acceptPartial platform loc name (acceptParam platform name)
      (argumentsOf platform params hash) (acceptNodeOption platform program) none)
  | .content loc value => located loc (acceptContent value)
  | .comment loc => located loc (pure ())

def acceptStatements (platform : Platform) : List Statement → Compile Unit
  | [] => pure ()
  | statement :: rest => do
    acceptStatement platform statement
    acceptStatements platform rest

def acceptNode (platform : Platform) : ProgramNode → Compile Unit
  | .mk loc _ statements blockParam1 blockParam2 =>
    located loc (acceptProgram blockParam1 blockParam2 statements.length
      (acceptStatements platform statements))

def acceptNodeOption (platform : Platform) : Option ProgramNode → Option (Compile Unit)
  | none => none
  | some node => some (acceptNode platform node)

def printedOption : Option ProgramNode → Option Str
  | none => none
  | some (.mk _ printed _ _ _) => some printed

end

/-- `handlebars_compiler_ctor` and `handlebars_compiler_set_flags`, with the node
stacks that `handlebars_compiler_compile` sets up. -/
def start (flags : Flags) (knownHelpers : List Str) : Compiler :=
  { flags := flags &&& Flag.all, knownHelpers := knownHelpers, bps := some [], sns := some [] }

/-- `handlebars_compiler_compile_ex`: an error leaves the program as it is. There is
no result when the process ends. -/
def compileEx (platform : Platform) (flags : Flags) (knownHelpers : List Str)
    (node : Option ProgramNode) : Option Compiler :=
  match node with
  | none => some (start flags knownHelpers)
  | some node =>
    match (acceptNode platform node (start flags knownHelpers)).1 with
    | .ok _ compiler => some compiler
    | .thrown compiler => some compiler
    | .aborted _ => none
    | .exhausted _ => none

end Compiler

end HandlebarsC
