import HandlebarsC.Core.Types

/-!
The syntax trees the parser hands to the compiler, typed after the grammar: what
the compiler asserts about the kinds of a node's parts holds of every tree.
Fields that only the printer and the whitespace pass read are left out.
-/

namespace HandlebarsC

/-- `struct handlebars_ast_node_path`. Only the node that the compiler adds for a
missing partial parameter has no `original`. -/
structure PathNode where
  loc : LocInfo
  original : Option Str
  parts : List Str
  depth : Nat
  data : Bool
  falsy : Bool := false
  strict : Bool := false
  deriving DecidableEq, Repr

inductive LiteralType where
  | boolean
  | number
  | nul
  | string
  | undefined
  deriving DecidableEq, Repr

/-- The grammar's `helper_name`. -/
inductive HelperName where
  | path (node : PathNode)
  | literal (type : LiteralType) (loc : LocInfo) (value : Str)
  deriving DecidableEq, Repr

mutual

/-- The grammar's `param`, which is also its `partial_name`. -/
inductive Param where
  | name (name : HelperName)
  | sexpr (loc : LocInfo) (path : HelperName) (params : List Param) (hash : Option HashNode)

inductive HashNode where
  | mk (loc : LocInfo) (pairs : List HashPair)

inductive HashPair where
  | mk (key : Str) (value : Param)

end

mutual

inductive Statement where
  | block (loc : LocInfo) (path : HelperName) (params : List Param) (hash : Option HashNode)
      (program inverse : Option ProgramNode) (isDecorator : Bool)
  | rawBlock (loc : LocInfo) (path : HelperName) (params : List Param) (hash : Option HashNode)
      (program inverse : Option ProgramNode)
  | mustache (loc : LocInfo) (path : HelperName) (params : List Param) (hash : Option HashNode)
      (unescaped isDecorator : Bool)
  | partialCall (loc : LocInfo) (name : Param) (params : List Param) (hash : Option HashNode)
      (indent : Option Str)
  | partialBlock (loc : LocInfo) (name : Param) (params : List Param) (hash : Option HashNode)
      (program : Option ProgramNode)
  | content (loc : LocInfo) (value : Str)
  | comment (loc : LocInfo)

/-- A program node. `printed` is what `handlebars_ast_to_string` makes of it. -/
inductive ProgramNode where
  | mk (loc : LocInfo) (printed : Str) (statements : List Statement)
      (blockParam1 blockParam2 : Option Str)

end

namespace LiteralType

/-- `handlebars_ast_node_readable_type` -/
def readableType : LiteralType → Str
  | boolean => bytes "BooleanLiteral"
  | number => bytes "NumberLiteral"
  | nul => bytes "NULL"
  | string => bytes "StringLiteral"
  | undefined => bytes "UNDEFINED"

end LiteralType

namespace PathNode

/-- `handlebars_ast_node_get_id_part` -/
def idPart (path : PathNode) : Option Str := path.parts.head?

/-- What follows the first occurrence of a text (`strstr`). -/
def afterFirst (text : Str) : Str → Option Str
  | [] => if text = [] then some [] else none
  | char :: rest =>
    if text.isPrefixOf (char :: rest) then some ((char :: rest).drop text.length)
    else afterFirst text rest

/-- `[a-zA-Z0-9_]` -/
def isWordChar (char : UInt8) : Bool :=
  (48 ≤ char && char ≤ 57) || (65 ≤ char && char ≤ 90) || char == 95 || (97 ≤ char && char ≤ 122)

/-- `handlebars_ast_helper_scoped_id` -/
def scopedId (path : PathNode) : Bool :=
  match path.original with
  | none => false
  | some original =>
    if original.head? = some 46 then true
    else if original = bytes "this" then true
    else if 4 < original.length then
      match afterFirst (bytes "this") original with
      | some (next :: _) => !isWordChar next
      | some [] => true
      | none => false
    else false

/-- `handlebars_ast_helper_simple_id` -/
def simpleId (path : PathNode) : Bool :=
  path.parts.length == 1 && !path.scopedId && path.depth == 0

end PathNode

namespace HelperName

/-- `handlebars_compiler_transform_literal_to_path` -/
def toPath : HelperName → PathNode
  | path node => node
  | literal _ _ value =>
    { loc := LocInfo.zero, original := some value, parts := [value], depth := 0, data := false }

def loc : HelperName → LocInfo
  | path node => node.loc
  | literal _ loc _ => loc

/-- `handlebars_ast_node_get_string_mode_value` -/
def stringModeValue : HelperName → Option Str
  | path node => node.original
  | literal _ _ value => some value

def readableType : HelperName → Str
  | path _ => bytes "PathExpression"
  | literal type _ _ => type.readableType

end HelperName

namespace Param

def stringModeValue : Param → Option Str
  | .name inner => inner.stringModeValue
  | sexpr .. => some []

def readableType : Param → Str
  | .name inner => inner.readableType
  | sexpr .. => bytes "SubExpression"

end Param

end HandlebarsC
