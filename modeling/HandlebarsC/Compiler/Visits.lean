import HandlebarsC.Compiler.Model

/-!
The order in which the compiler visits the nodes of a tree, and where that ends: with the last
node, with an error, or where a node stack has no place or a string is NULL.
-/

namespace HandlebarsC

namespace Compiler

/-- How the visit of a part ends. -/
inductive Verdict where
  | completes
  | throws
  | breaks
  deriving DecidableEq, Repr

/-- Two parts, one after the other -/
def Verdict.andThen : Verdict → Verdict → Verdict
  | completes, next => next
  | throws, _ => throws
  | breaks, _ => breaks

/-- What a visit depends on: the options, the block parameters in scope, and the height of the source
node stack. -/
structure Room where
  flags : Flags
  knownHelpers : List Str
  scopes : List BlockParamPair
  nodes : Nat

namespace Room

variable (platform : Platform) (room : Room)

/-- A compiler in the room -/
def compiler : Compiler :=
  { flags := room.flags, knownHelpers := room.knownHelpers, bps := some room.scopes }

/-- A node, which takes a place on the source node stack -/
def node (body : Room → Verdict) : Verdict :=
  if room.nodes > stackSize then .throws
  else if room.nodes = stackSize then .breaks
  else body { room with nodes := room.nodes + 1 }

/-- The statements of a program, which takes a place on the block parameter stack -/
def scope (pair : BlockParamPair) (body : Room → Verdict) : Verdict :=
  if room.scopes.length > stackSize then .throws
  else if room.scopes.length = stackSize then .breaks
  else body { room with scopes := pair :: room.scopes }

/-- A node without parts -/
def leaf : Verdict := room.node fun _ => .completes

def string : Option Str → Verdict
  | some _ => .completes
  | none => .breaks

def pushParam (param : Param) (accepted : Verdict) : Verdict :=
  if room.flags.has Flag.stringParams then
    (string param.stringModeValue).andThen (if isSexpr param then accepted else .completes)
  else if room.flags.has Flag.trackIds && (paramBlockParam platform room.scopes param).isNone then
    (string param.stringModeValue).andThen accepted
  else accepted

def sexprHelper (path : PathNode) (arguments : Verdict) : Verdict :=
  arguments.andThen
    (if room.compiler.isKnownHelper path then string path.idPart
    else if room.flags.has Flag.knownHelpersOnly then (string path.idPart).andThen .throws
    else room.leaf.andThen (string path.original))

def sexpr (path : PathNode) (arguments : Verdict) (isHelperExpression : Bool) : Verdict :=
  match classifySexpr platform room.compiler path isHelperExpression with
  | .helper => room.sexprHelper path arguments
  | .simple => room.leaf
  | .ambig => room.leaf.andThen (string path.idPart)

def blockSexpr (path : PathNode) (arguments : Verdict) (isHelperExpression : Bool) : Verdict :=
  match classifySexpr platform room.compiler path isHelperExpression with
  | .helper => room.sexprHelper path arguments
  | .simple => room.leaf.andThen (string path.original)
  | .ambig => room.leaf.andThen (string path.idPart)

/-- The arguments of an alternate decorator are compiled without node stacks. -/
def decorator (original : Option Str) (arguments : Verdict) (isPresent : Bool) : Verdict :=
  (if room.flags.has Flag.alternateDecorators then if isPresent then .breaks else .completes
    else arguments).andThen (string original)

end Room

mutual

def visitParam (platform : Platform) (room : Room) : Param → Verdict
  | .name _ => room.leaf
  | .sexpr _ path params hash => room.node fun room =>
    room.sexpr platform path.toPath
      ((visitParams platform room params).andThen (visitHashOption platform room hash)) true

def visitParams (platform : Platform) (room : Room) : List Param → Verdict
  | [] => .completes
  | param :: rest =>
    (room.pushParam platform param (visitParam platform room param)).andThen
      (visitParams platform room rest)

def visitHashOption (platform : Platform) (room : Room) : Option HashNode → Verdict
  | none => .completes
  | some hash => visitHashNode platform room hash

def visitHashNode (platform : Platform) (room : Room) : HashNode → Verdict
  | .mk _ pairs => room.node fun room => visitPairs platform room pairs

def visitPairs (platform : Platform) (room : Room) : List HashPair → Verdict
  | [] => .completes
  | .mk _ value :: rest =>
    (room.pushParam platform value (visitParam platform room value)).andThen
      (visitPairs platform room rest)

end

def visitArguments (platform : Platform) (room : Room) (params : List Param)
    (hash : Option HashNode) : Verdict :=
  (visitParams platform room params).andThen (visitHashOption platform room hash)

/-- Whether there are parameters or a hash -/
def hasArguments (params : List Param) (hash : Option HashNode) : Bool :=
  hash.isSome || 0 < params.length

/-- The name of a partial, which its opcode has as text -/
def visitPartialName : Param → Verdict
  | .sexpr .. | .name (.literal .number ..) => .completes
  | .name name => Room.string name.stringModeValue

def visitPartial (platform : Platform) (room : Room) (name : Param) (params : List Param)
    (hash : Option HashNode) (program : Verdict) : Verdict :=
  if params.length > 1 then .throws
  else
    (if isSexpr name then visitParam platform room name else .completes).andThen <|
    program.andThen <|
    (if params.length = 0 ∧ room.flags.has Flag.explicitPartialContext = false then
      room.pushParam platform missingParam (visitParam platform room missingParam)
    else visitParams platform room params).andThen <|
    (visitHashOption platform room hash).andThen (visitPartialName name)

mutual

def visitStatement (platform : Platform) (room : Room) : Statement → Verdict
  | .block _ path params hash program inverse isDecorator => room.node fun room =>
    (visitNodeOption platform room program).andThen <|
    if isDecorator then
      room.decorator path.toPath.original (visitArguments platform room params hash) (hasArguments params hash)
    else
      (visitNodeOption platform room inverse).andThen
        (room.blockSexpr platform path.toPath (visitArguments platform room params hash)
          (hasArguments params hash))
  | .rawBlock _ path params hash program inverse => room.node fun room =>
    (visitNodeOption platform room program).andThen <|
    (visitNodeOption platform room inverse).andThen
      (room.blockSexpr platform path.toPath (visitArguments platform room params hash)
        (hasArguments params hash))
  | .mustache _ path params hash _ isDecorator => room.node fun room =>
    if isDecorator then
      room.decorator path.stringModeValue (visitArguments platform room params hash) (hasArguments params hash)
    else
      room.sexpr platform path.toPath (visitArguments platform room params hash) (hasArguments params hash)
  | .partialCall _ name params hash _ => room.node fun room =>
    visitPartial platform room name params hash .completes
  | .partialBlock _ name params hash program => room.node fun room =>
    visitPartial platform room name params hash (visitNodeOption platform room program)
  | .content .. | .comment _ => room.leaf

def visitStatements (platform : Platform) (room : Room) : List Statement → Verdict
  | [] => .completes
  | statement :: rest =>
    (visitStatement platform room statement).andThen (visitStatements platform room rest)

def visitNode (platform : Platform) (room : Room) : ProgramNode → Verdict
  | .mk _ _ statements blockParam1 blockParam2 => room.node fun room =>
    room.scope ⟨blockParam1, blockParam2⟩ fun room => visitStatements platform room statements

def visitNodeOption (platform : Platform) (room : Room) : Option ProgramNode → Verdict
  | none => .completes
  | some node => visitNode platform room node

end

/-- A node that has a location and parts of its own -/
inductive AstNode where
  | program (node : ProgramNode)
  | statement (statement : Statement)
  | param (param : Param)
  | hash (hash : HashNode)

/-- `handlebars_compiler_accept` -/
def accept (platform : Platform) : AstNode → Compile Unit
  | .program node => acceptNode platform node
  | .statement statement => acceptStatement platform statement
  | .param param => acceptParam platform param
  | .hash hash => acceptHashNode platform hash

def visit (platform : Platform) (room : Room) : AstNode → Verdict
  | .program node => visitNode platform room node
  | .statement statement => visitStatement platform room statement
  | .param param => visitParam platform room param
  | .hash hash => visitHashNode platform room hash

/-- The room of a compilation -/
def Room.start (flags : Flags) (knownHelpers : List Str) : Room where
  flags := flags &&& Flag.all
  knownHelpers := knownHelpers
  scopes := []
  nodes := 0

end Compiler

end HandlebarsC
