import HandlebarsC.Parser.Comment
import HandlebarsC.Parser.Grammar
import HandlebarsC.Parser.Whitespace

/-!
The actions of `handlebars.y` and the functions of `handlebars_ast_helpers.c` that they call: the
nodes that are made of a parse tree.
-/

namespace HandlebarsC.Parser

/-- What an action makes -/
abbrev Built := Except Failure

def raise (num : ErrorType) (msg : Str) (loc : LocInfo) : Built α := .error (.error ⟨num, msg, loc⟩)

section Helpers

-- `handlebars_string_eq` compares hashes.
variable (hash : StringHash)

/-- `handlebars_ast_helper_strip_flags` -/
def stripFlags (opening closing : Str) : StripFlags :=
  (if 3 ≤ opening.length ∧ charAt opening 2 = 126 then .left else 0) |||
    (if 3 ≤ closing.length ∧ charAt closing (closing.length - 3) = 126 then .right else 0) ||| .set

/-- An intermediate node that opens a block: `open_` is the text of its tag, where the parser keeps
it. -/
structure Opening where
  strip : StripFlags
  path : HelperName
  params : List Param
  pairs : Option HashNode
  blockParam1 : Option Str
  blockParam2 : Option Str
  open_ : Option Str

/-- An inverse node -/
structure Inverse where
  strip : StripFlags
  program : ProgramTree
  chained : Bool

/-- What ends a block: a tag, or the inverse node of a chain -/
inductive Closing where
  | tag (strip : StripFlags) (path : HelperName)
  | inverse (strip : StripFlags)

def Closing.strip : Closing → StripFlags
  | tag strip _ | inverse strip => strip

/-- `handlebars_ast_node_ctor(parser, HANDLEBARS_AST_NODE_PROGRAM)` -/
def emptyProgram : ProgramTree := .mk 0 LocInfo.zero none none none false

def ProgramTree.withBlockParams (blockParam1 blockParam2 : Option Str) : ProgramTree → ProgramTree
  | mk strip loc statements _ _ chained => mk strip loc statements blockParam1 blockParam2 chained

/-- The block that a chained program starts with ends where the chain does. -/
def ProgramTree.closeFirst (strip : StripFlags) (program : ProgramTree) : ProgramTree :=
  match program.statements with
  | some (.block own call marks isDecorator inner inverse :: rest) =>
    program.withStatements
      (some (.block own call { marks with closeStrip := strip } isDecorator inner inverse :: rest))
  | _ => program

/-- The tags of a block that name different helpers -/
def mismatch (num : ErrorType) (open_ close : Str) (loc : LocInfo) : Built α :=
  raise num (cstring open_ ++ bytes " doesn't match " ++ cstring close) loc

/-- Whether the tag that ends a block names what the tag that opens it does -/
def checkClose (num : ErrorType) (open_ close : Option Str) (loc : LocInfo) : Built Unit :=
  if stringEq hash (open_.getD []) (close.getD []) then pure ()
  else mismatch num (open_.getD []) (close.getD []) loc

/-- The check of a block, as far as a tag ends it -/
def checkBlock (open_ : HelperName) (close : Option Closing) (loc : LocInfo) : Built Unit :=
  match close with
  | some (.tag _ path) => checkClose hash .parseerr open_.stringModeValue path.stringModeValue loc
  | _ => pure ()

/-- The inverse program of a block -/
def blockInverse (isDecorator : Bool) (inverse : Option Inverse) (close : Option Closing)
    (loc : LocInfo) : Built (Option ProgramTree) :=
  match inverse with
  | none => pure none
  | some inverse =>
    if isDecorator then raise .parseerr (bytes "Unexpected inverse block on decorator") loc
    else if inverse.chained then
      match close with
      | some close => pure (some (inverse.program.closeFirst close.strip))
      | none => .error .crash
    else pure (some inverse.program)

/-- `handlebars_ast_helper_prepare_block` -/
def prepareBlock (opening : Opening) (program : Option ProgramTree) (inverse : Option Inverse)
    (close : Option Closing) (inverted : Bool) (loc : LocInfo) : Built Node := do
  checkBlock hash opening.path close loc
  let isDecorator := opening.open_.any fun text => (cstring text).contains 42
  let program :=
    some ((program.getD emptyProgram).withBlockParams opening.blockParam1 opening.blockParam2)
  let other ← blockInverse isDecorator inverse close loc
  let marks := ⟨opening.strip, inverse.elim 0 (·.strip), close.elim 0 (·.strip)⟩
  let call := ⟨loc, opening.path, opening.params, opening.pairs⟩
  pure (if inverted then .block 0 call marks isDecorator other program
    else .block 0 call marks isDecorator program other)

/-- `handlebars_ast_helper_prepare_inverse_chain` -/
def prepareInverseChain (opening : Opening) (program : Option ProgramTree)
    (inverse : Option Inverse) (loc : LocInfo) : Built Inverse := do
  let block ← prepareBlock hash opening program inverse
    (inverse.map fun inverse => .inverse inverse.strip) false loc
  pure ⟨opening.strip, .mk 0 loc (some [block]) none none true, true⟩

/-- `handlebars_ast_helper_prepare_mustache` -/
def prepareMustache (path : HelperName) (params : List Param) (pairs : Option HashNode)
    (open_ : Str) (strip : StripFlags) (loc : LocInfo) : Node :=
  let char := if 4 ≤ open_.length then charAt open_ 3
    else if 3 ≤ open_.length then charAt open_ 2 else 0
  let unescaped := if char = 123 then 1 else if char = 38 then 3 else 0
  .mustache strip ⟨loc, path, params, pairs⟩ unescaped ((cstring open_).contains 42)

/-- `handlebars_ast_helper_prepare_partial_block` -/
def preparePartialBlock (strip : StripFlags) (name : Param) (params : List Param)
    (pairs : Option HashNode) (program : ProgramTree) (closeStrip : StripFlags) (path : HelperName)
    (loc : LocInfo) : Built Node := do
  checkClose hash .parseerr name.stringModeValue path.stringModeValue loc
  pure (.partialBlock 0 loc name params pairs ⟨strip, 0, closeStrip⟩ (some program))

/-- `handlebars_ast_node_ctor_content` -/
def contentNode (value : Str) (loc : LocInfo) : Node := .content ⟨0, loc, value, value⟩

/-- `handlebars_ast_helper_prepare_raw_block`: the value of a literal is where the original text of
a path is, but the constructor asserts that there is a path. -/
def prepareRawBlock (opening : Opening) (content close : Str) (loc : LocInfo) : Built Node := do
  checkClose hash .error opening.path.stringModeValue (some close) loc
  match opening.path with
  | .path _ =>
    pure (.rawBlock 0 ⟨loc, opening.path, opening.params, opening.pairs⟩ ⟨0, 0, 0⟩
      (some (.mk 0 LocInfo.zero (some [contentNode content loc]) none none false)) none)
  | .literal .. => .error .crash

/-- `handlebars_ast_node_ctor_comment`, with the strip flags that the action sets then -/
def commentNode (value : Str) (isLong : Bool) (loc : LocInfo) : Built Node :=
  match stripComment value with
  | some text => pure (.comment (stripFlags value value) loc text isLong)
  | none => .error .crash

end Helpers

section Actions

variable (hash : StringHash)

/-- The segments as `handlebars_ast_node_ctor_path_segment` gets them -/
def PathSyntax.segments (path : PathSyntax) : List SegmentToken :=
  ⟨none, path.first.text⟩ :: path.rest.map fun (separator, id) => ⟨some separator.text, id.text⟩

/-- `path` and `data_name` -/
def buildPath (data : Bool) (path : PathSyntax) (loc : LocInfo) : Built PathNode :=
  let nodes := path.segments.map SegmentToken.node
  match preparePath hash nodes (pathSegments path.segments) data loc with
  | some (.ok prepared) => pure (prepared.node nodes)
  | some (.error error) => .error (.error error)
  | none => .error .crash

def LiteralToken.type : LiteralToken → LiteralType
  | string | singleString => .string
  | number => .number
  | boolean => .boolean
  | undefined => .undefined
  | nul => .nul

/-- `helper_name` -/
def buildName (name : NameSyntax) : Built HelperName :=
  match name with
  | .path path => do
    let path ← buildPath hash false path (span name.lexemes)
    pure (.path path)
  | .dataName _ path => do
    let path ← buildPath hash true path (span name.lexemes)
    pure (.path path)
  | .literal kind value => pure (.literal kind.type (span name.lexemes) value.text)

/-- A list that is not there where a production leaves it out -/
def pairsNode (pairs : List HashPair) : Option HashNode :=
  if pairs.isEmpty then none else some (.mk LocInfo.zero pairs)

mutual

/-- `param` -/
def buildParam : ParamSyntax → Built Param
  | .name name => do
    let name ← buildName hash name
    pure (.name name)
  | .sexpr opening (.mk name params pairs) closing => do
    let path ← buildName hash name
    let params' ← buildParams params
    let pairs' ← buildPairs pairs
    pure (.sexpr (span (ParamSyntax.sexpr opening (.mk name params pairs) closing).lexemes) path
      params' (pairsNode pairs'))

/-- `params` -/
def buildParams : List ParamSyntax → Built (List Param)
  | [] => pure []
  | param :: rest => do
    let param ← buildParam param
    let rest ← buildParams rest
    pure (param :: rest)

/-- `hash_pairs` -/
def buildPairs : List PairSyntax → Built (List HashPair)
  | [] => pure []
  | .mk key _ value :: rest => do
    let value ← buildParam value
    let rest ← buildPairs rest
    pure (.mk key.text value :: rest)

end

/-- A tag that opens a block. Only the tags of one kind keep their text. -/
def buildOpening (keeps : Bool) (tag : OpenSyntax) (strip : StripFlags) : Built Opening :=
  match tag.call with
  | .mk name params pairs => do
    let path ← buildName hash name
    let params ← buildParams hash params
    let pairs ← buildPairs hash pairs
    pure {
      strip := strip
      path := path
      params := params
      pairs := pairsNode pairs
      blockParam1 := tag.blockParams.map fun blockParams => blockParams.first.text
      blockParam2 := tag.blockParams.bind fun blockParams => blockParams.second.map (·.text)
      open_ := if keeps then some tag.opening.text else none }

def OpenSyntax.strip (tag : OpenSyntax) : StripFlags := stripFlags tag.opening.text tag.closing.text

def CloseSyntax.strip (tag : CloseSyntax) : StripFlags := stripFlags tag.opening.text tag.closing.text

def PartialSyntax.strip (tag : PartialSyntax) : StripFlags :=
  stripFlags tag.opening.text tag.closing.text

mutual

/-- `statement` -/
def buildStatement : StatementSyntax → Built Node
  | .mustache unescaped opening (.mk name params pairs) closing => do
    let loc := span (StatementSyntax.mustache unescaped opening (.mk name params pairs) closing).lexemes
    let path ← buildName hash name
    let params ← buildParams hash params
    let pairs ← buildPairs hash pairs
    pure (prepareMustache path params (pairsNode pairs) opening.text
      (stripFlags opening.text closing.text) loc)
  | .block inverted opening program inverse closing => do
    let loc := span (StatementSyntax.block inverted opening program inverse closing).lexemes
    let opening ← buildOpening hash (!inverted) opening opening.strip
    let program ← buildProgramOption program
    let inverse ← buildInverseOption inverse
    let path ← buildName hash closing.name
    prepareBlock hash opening program inverse (some (.tag closing.strip path)) inverted loc
  | .rawBlock opening contents closing => do
    let loc := span (StatementSyntax.rawBlock opening contents closing).lexemes
    let opening ← buildOpening hash false opening 0
    prepareRawBlock hash opening (contents.flatMap (·.text)) closing.text loc
  | .partialCall tag => do
    let name ← buildParam hash tag.name
    let params ← buildParams hash tag.params
    let pairs ← buildPairs hash tag.pairs
    pure (.partialCall tag.strip (span (tag.lexemes .openPartial)) name params (pairsNode pairs) none)
  | .partialBlock tag program closing => do
    let loc := span (StatementSyntax.partialBlock tag program closing).lexemes
    let name ← buildParam hash tag.name
    let params ← buildParams hash tag.params
    let pairs ← buildPairs hash tag.pairs
    let program ← buildProgramOption program
    let path ← buildName hash closing.name
    preparePartialBlock hash tag.strip name params (pairsNode pairs) (program.getD emptyProgram)
      closing.strip path loc
  | .content first rest =>
    pure (contentNode ((first :: rest).flatMap (·.text)) (span (contentLexemes (first :: rest))))
  | .comment isLong value => commentNode value.text isLong value.loc

/-- `statements` -/
def buildStatements : List StatementSyntax → Built (List Node)
  | [] => pure []
  | statement :: rest => do
    let node ← buildStatement statement
    let rest ← buildStatements rest
    pure (node :: rest)

/-- `program` -/
def buildProgram : ProgramSyntax → Built ProgramTree
  | .mk first rest => do
    let node ← buildStatement first
    let nodes ← buildStatements rest
    pure (.mk 0 (span (ProgramSyntax.mk first rest).lexemes) (some (node :: nodes)) none none false)

def buildProgramOption : Option ProgramSyntax → Built (Option ProgramTree)
  | none => pure none
  | some program => do
    let program ← buildProgram program
    pure (some program)

/-- `inverse_chain` and `inverse_and_program` -/
def buildInverse : InverseSyntax → Built Inverse
  | .chain tag program inverse => do
    let loc := span (InverseSyntax.chain tag program inverse).lexemes
    let opening ← buildOpening hash false tag tag.strip
    let program ← buildProgramOption program
    let inverse ← buildInverseOption inverse
    prepareInverseChain hash opening program inverse loc
  | .inverse tag program => do
    let program ← buildProgramOption program
    pure ⟨stripFlags tag.text tag.text, program.getD emptyProgram, false⟩

def buildInverseOption : Option InverseSyntax → Built (Option Inverse)
  | none => pure none
  | some inverse => do
    let inverse ← buildInverse inverse
    pure (some inverse)

end

/-- The whitespace pass, which ends the process where it reads a list that is not there -/
def trimTemplate (program : ProgramTree) : Built ProgramTree :=
  match program.accept true with
  | some program => pure program
  | none => .error .crash

/-- `start` -/
def buildTemplate (source : ProgramSyntax) : Built ProgramTree := do
  let program ← buildProgram hash source
  trimTemplate program

end Actions

end HandlebarsC.Parser
