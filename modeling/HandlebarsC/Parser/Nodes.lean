import HandlebarsC.Core.Ast

/-!
The nodes as the parser builds them: the trees of the compiler with the fields that only the
parser and its whitespace pass read and write.
-/

namespace HandlebarsC.Parser

/-- `unsigned strip`, with the bits of `enum handlebars_ast_strip_flag` -/
abbrev StripFlags := UInt32

namespace StripFlags

def set : StripFlags := 1
def left : StripFlags := 2
def right : StripFlags := 4
def openStandalone : StripFlags := 8
def closeStandalone : StripFlags := 16
def inlineStandalone : StripFlags := 32
def leftStripped : StripFlags := 64
def rightStripped : StripFlags := 128

def has (strip flag : StripFlags) : Bool := strip &&& flag != 0

end StripFlags

/-- A content node: `value` is what the compiler reads, `original` what was parsed. -/
structure Content where
  strip : StripFlags
  loc : LocInfo
  value : Str
  original : Str
  deriving DecidableEq, Repr

/-- What the tags of a block call. -/
structure BlockCall where
  loc : LocInfo
  path : HelperName
  params : List Param
  hash : Option HashNode

/-- The strip flags of the tags of a block. -/
structure BlockMarks where
  openStrip : StripFlags
  inverseStrip : StripFlags
  closeStrip : StripFlags
  deriving DecidableEq, Repr

mutual

/-- `struct handlebars_ast_node`, as far as it is a statement. -/
inductive Node where
  | block (strip : StripFlags) (call : BlockCall) (marks : BlockMarks) (isDecorator : Bool)
      (program inverse : Option ProgramTree)
  | rawBlock (strip : StripFlags) (call : BlockCall) (marks : BlockMarks)
      (program inverse : Option ProgramTree)
  | mustache (strip : StripFlags) (call : BlockCall) (unescaped : UInt8) (isDecorator : Bool)
  | partialCall (strip : StripFlags) (loc : LocInfo) (name : Param) (params : List Param)
      (hash : Option HashNode) (indent : Option Str)
  | partialBlock (strip : StripFlags) (loc : LocInfo) (name : Param) (params : List Param)
      (hash : Option HashNode) (marks : BlockMarks) (program : Option ProgramTree)
  | content (text : Content)
  | comment (strip : StripFlags) (loc : LocInfo) (value : Str) (isLong : Bool)

/-- A program node. The parser leaves `statements` null where a block is empty. -/
inductive ProgramTree where
  | mk (strip : StripFlags) (loc : LocInfo) (statements : Option (List Node))
      (blockParam1 blockParam2 : Option Str) (chained : Bool)

end

namespace ProgramTree

def statements : ProgramTree → Option (List Node)
  | mk _ _ statements _ _ _ => statements

def chained : ProgramTree → Bool
  | mk _ _ _ _ _ chained => chained

/-- The program with other statements. -/
def withStatements (statements : Option (List Node)) : ProgramTree → ProgramTree
  | mk strip loc _ blockParam1 blockParam2 chained =>
    mk strip loc statements blockParam1 blockParam2 chained

end ProgramTree

namespace Node

def strip : Node → StripFlags
  | .block strip .. | .rawBlock strip .. | .mustache strip .. | .partialCall strip ..
  | .partialBlock strip .. | .comment strip .. => strip
  | .content text => text.strip

end Node

section Compiling

-- What `handlebars_ast_to_string` makes of a program
variable (print : ProgramTree → Str)

mutual

/-- The statement that the compiler reads. -/
def Node.toStatement : Node → Statement
  | .block _ call _ isDecorator program inverse =>
    .block call.loc call.path call.params call.hash (programOption program) (programOption inverse)
      isDecorator
  | .rawBlock _ call _ program inverse =>
    .rawBlock call.loc call.path call.params call.hash (programOption program) (programOption inverse)
  | .mustache _ call unescaped isDecorator =>
    .mustache call.loc call.path call.params call.hash (unescaped != 0) isDecorator
  | .partialCall _ loc name params hash indent => .partialCall loc name params hash indent
  | .partialBlock _ loc name params hash _ program =>
    .partialBlock loc name params hash (programOption program)
  | .content text => .content text.loc text.value
  | .comment _ loc _ _ => .comment loc

def statementList : List Node → List Statement
  | [] => []
  | node :: rest => node.toStatement :: statementList rest

def statementOption : Option (List Node) → List Statement
  | none => []
  | some nodes => statementList nodes

def ProgramTree.toProgramNode : ProgramTree → ProgramNode
  | .mk strip loc statements blockParam1 blockParam2 chained =>
    .mk loc (print (.mk strip loc statements blockParam1 blockParam2 chained))
      (statementOption statements) blockParam1 blockParam2

def programOption : Option ProgramTree → Option ProgramNode
  | none => none
  | some program => some program.toProgramNode

end

end Compiling

end HandlebarsC.Parser
