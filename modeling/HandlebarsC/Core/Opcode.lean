import HandlebarsC.Core.Types

namespace HandlebarsC

/-- `enum handlebars_opcode_type` -/
inductive OpcodeType where
  | invalid
  | nil
  | ambiguousBlockValue
  | append
  | appendEscaped
  | emptyHash
  | popHash
  | pushContext
  | pushHash
  | resolvePossibleLambda
  | getContext
  | pushProgram
  | appendContent
  | assignToHash
  | blockValue
  | push
  | pushLiteral
  | pushString
  | invokePartial
  | pushId
  | pushStringParam
  | invokeAmbiguous
  | invokeKnownHelper
  | invokeHelper
  | lookupOnContext
  | lookupData
  | lookupBlockParam
  | registerDecorator
  | ret
  deriving DecidableEq, Repr

/-- `handlebars_opcode_readable_type` -/
def opcodeReadableType : OpcodeType → Str
  | .invalid => bytes "invalid"
  | .nil => bytes "nil"
  | .ambiguousBlockValue => bytes "ambiguousBlockValue"
  | .append => bytes "append"
  | .appendEscaped => bytes "appendEscaped"
  | .emptyHash => bytes "emptyHash"
  | .popHash => bytes "popHash"
  | .pushContext => bytes "pushContext"
  | .pushHash => bytes "pushHash"
  | .resolvePossibleLambda => bytes "resolvePossibleLambda"
  | .getContext => bytes "getContext"
  | .pushProgram => bytes "pushProgram"
  | .appendContent => bytes "appendContent"
  | .assignToHash => bytes "assignToHash"
  | .blockValue => bytes "blockValue"
  | .push => bytes "push"
  | .pushLiteral => bytes "pushLiteral"
  | .pushString => bytes "pushString"
  | .invokePartial => bytes "invokePartial"
  | .pushId => bytes "pushId"
  | .pushStringParam => bytes "pushStringParam"
  | .invokeAmbiguous => bytes "invokeAmbiguous"
  | .invokeKnownHelper => bytes "invokeKnownHelper"
  | .invokeHelper => bytes "invokeHelper"
  | .lookupOnContext => bytes "lookupOnContext"
  | .lookupData => bytes "lookupData"
  | .lookupBlockParam => bytes "lookupBlockParam"
  | .registerDecorator => bytes "registerDecorator"
  | .ret => bytes "return"

/-- `struct handlebars_operand`. A null operand still has a union behind its
tag, of which only the first byte is ever written: `boolval`. -/
inductive Operand where
  | null (boolval : Bool)
  | boolean (boolval : Bool)
  | long (longval : Int)
  | string (string : Str)
  | array (array : List Str)
  deriving DecidableEq, Repr

/-- `struct handlebars_opcode` over a type of operands. -/
structure OpcodeOf (ω : Type) where
  type : OpcodeType
  op1 : ω
  op2 : ω
  op3 : ω
  op4 : ω
  loc : LocInfo
  deriving DecidableEq, Repr

abbrev Opcode := OpcodeOf Operand

/-- `handlebars_opcode_ctor`: zeroed memory with the type set. -/
def opcodeCtor (type : OpcodeType) : Opcode :=
  ⟨type, .null false, .null false, .null false, .null false, LocInfo.zero⟩

/-- The opcode at a location. -/
def OpcodeOf.place (opcode : OpcodeOf ω) (loc : LocInfo) : OpcodeOf ω := { opcode with loc := loc }

@[simp] theorem OpcodeOf.place_type (opcode : OpcodeOf ω) (loc : LocInfo) :
    (opcode.place loc).type = opcode.type := rfl

@[simp] theorem OpcodeOf.place_op1 (opcode : OpcodeOf ω) (loc : LocInfo) :
    (opcode.place loc).op1 = opcode.op1 := rfl

def OpcodeOf.map (transform : ω → υ) (opcode : OpcodeOf ω) : OpcodeOf υ :=
  ⟨opcode.type, transform opcode.op1, transform opcode.op2, transform opcode.op3,
    transform opcode.op4, opcode.loc⟩

@[simp] theorem OpcodeOf.map_type (transform : ω → υ) (opcode : OpcodeOf ω) :
    (opcode.map transform).type = opcode.type := rfl

/-- Operands in field order. -/
def OpcodeOf.operands (opcode : OpcodeOf ω) : List ω :=
  [opcode.op1, opcode.op2, opcode.op3, opcode.op4]

end HandlebarsC
