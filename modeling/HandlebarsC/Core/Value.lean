import HandlebarsC.Core.Text

/-!
`struct handlebars_value`, over the type of modules a pointer value can hold.
Values that are compared by pointer carry the address of what they point to.
-/

namespace HandlebarsC

/-- A parsed JSON document. -/
inductive Json where
  | null
  | boolean (value : Bool)
  | int (value : Int)
  | double (value : Double)
  | string (value : Str)
  | array (items : List Json)
  | object (entries : List (Str × Json))

/-- `builtins` of `handlebars_helpers.c` -/
inductive Builtin where
  | blockHelperMissing
  | helperMissing
  | each
  | ifHelper
  | unless
  | with
  | log
  | lookup
  | setDelimiters
  deriving DecidableEq, Repr

/-- `handlebars_builtins_find` -/
def builtinsFind (name : Str) : Option Builtin :=
  if name = bytes "blockHelperMissing" then some .blockHelperMissing
  else if name = bytes "helperMissing" then some .helperMissing
  else if name = bytes "each" then some .each
  else if name = bytes "if" then some .ifHelper
  else if name = bytes "unless" then some .unless
  else if name = bytes "with" then some .with
  else if name = bytes "log" then some .log
  else if name = bytes "lookup" then some .lookup
  else if name = bytes "hbsc_set_delimiters" then some .setDelimiters
  else none

/-- A `handlebars_helper_func`: one of the library, or one the user registered. -/
inductive HelperFunc where
  | builtin (builtin : Builtin)
  | user (id : Nat)
  deriving DecidableEq, Repr

/-- The functions the VM makes closures of. -/
inductive ClosureFunc where
  | partialBlock
  | partialString
  | mustacheStyleLambda
  deriving DecidableEq, Repr

inductive Value (μ : Type) where
  | null
  | boolean (bval : Bool)
  | integer (lval : Int)
  | float (dval : Double)
  | string (val : Str) (safe : Bool)
  | array (addr : Nat) (items : List (Value μ))
  | map (addr : Nat) (entries : List (Str × Value μ))
  | user (addr : Nat) (json : Json)
  | ptr (addr : Nat) (module : μ)
  | helper (fn : HelperFunc)
  | closure (addr : Nat) (fn : ClosureFunc) (localv : List (Value μ))

/-- `enum handlebars_value_type` -/
inductive ValueType where
  | null
  | true
  | false
  | integer
  | float
  | string
  | array
  | map
  | user
  | ptr
  | helper
  | closure
  deriving DecidableEq, Repr

namespace ValueType

/-- `handlebars_value_type_readable` -/
def readable : ValueType → Str
  | null => bytes "null"
  | true => bytes "true"
  | false => bytes "false"
  | integer => bytes "integer"
  | float => bytes "float"
  | string => bytes "string"
  | array => bytes "array"
  | map => bytes "map"
  | user => bytes "user"
  | ptr => bytes "ptr"
  | helper => bytes "helper"
  | closure => bytes "closure"

end ValueType

namespace Json

/-- `hbs_json_type` -/
def type : Json → ValueType
  | object _ => .map
  | array _ => .array
  | _ => .null

/-- `hbs_json_count` -/
def count : Json → Int
  | object entries => entries.length
  | array items => items.length
  | _ => -1

mutual

/-- `handlebars_value_expression_append` of a value made from JSON; the value that was
there before shows through `null`. -/
def expression (platform : Platform) (escape : Bool) (stale : Str) : Json → Str
  | .null => stale
  | .boolean value => if value then bytes "true" else bytes "false"
  | .int value => formatLong value
  | .double value => platform.formatDouble value
  | .string value => if escape then htmlspecialchars value else value
  | .array items => expressionItems platform escape Option.none items
  | .object _ => []

/-- The items with commas between them. -/
def expressionItems (platform : Platform) (escape : Bool) : Option Str → List Json → Str
  | _, [] => []
  | previous, item :: rest =>
    let text := expression platform escape (previous.getD []) item
    (if previous.isSome then bytes "," else []) ++ text ++
      expressionItems platform escape (some text) rest

end

end Json

namespace Value

variable {μ : Type}

/-- `handlebars_value_get_real_type` -/
def realType : Value μ → ValueType
  | null => .null
  | boolean true => .true
  | boolean false => .false
  | integer _ => .integer
  | float _ => .float
  | string _ _ => .string
  | array _ _ => .array
  | map _ _ => .map
  | user _ _ => .user
  | ptr _ _ => .ptr
  | helper _ => .helper
  | closure _ _ _ => .closure

/-- `handlebars_value_get_type` -/
def type : Value μ → ValueType
  | user _ json => json.type
  | value => value.realType

/-- `handlebars_value_is_callable` -/
def isCallable : Value μ → Bool
  | helper _ => true
  | closure _ _ _ => true
  | _ => false

/-- `handlebars_value_count` -/
def count : Value μ → Int
  | array _ items => items.length
  | map _ entries => entries.length
  | user _ json => json.count
  | _ => -1

/-- `handlebars_value_get_boolval` -/
def boolval : Value μ → Bool
  | boolean bval => bval
  | integer lval => lval != 0
  | float dval => !dval.isZero
  | string val _ => !val.isEmpty && cstring val != bytes "0"
  | array _ items => !items.isEmpty
  | map _ entries => !entries.isEmpty
  | user _ json => json.count != 0
  | _ => false

/-- `handlebars_value_is_empty` -/
def isEmpty (value : Value μ) : Bool := !value.boolval

/-- `handlebars_value_get_intval` -/
def intval : Value μ → Int
  | integer lval => lval
  | _ => 0

/-- `handlebars_value_get_string` -/
def getString : Value μ → Option Str
  | string val _ => some val
  | _ => none

/-- `handlebars_value_to_string` -/
def toText (platform : Platform) : Value μ → Str
  | string val _ => val
  | integer lval => formatLong lval
  | float dval => platform.formatDouble dval
  | boolean bval => if bval then bytes "true" else bytes "false"
  | _ => []

/-- `handlebars_value_eq` -/
def eq (platform : Platform) : Value μ → Value μ → Bool
  | null, null => true
  | boolean left, boolean right => left == right
  | float left, float right => left.same right
  | integer left, integer right => left == right
  | string left _, string right _ => left == right || stringEq platform.hash left right
  | array left _, array right _ => left == right
  | map left _, map right _ => left == right
  | user left _, user right _ => left == right
  | helper left, helper right => left == right
  | ptr left _, ptr right _ => left == right
  | closure left _ _, closure right _ _ => left == right
  | _, _ => false

mutual

/-- `handlebars_value_expression` -/
def expression (platform : Platform) (escape : Bool) : Value μ → Str
  | null => []
  | boolean bval => if bval then bytes "true" else bytes "false"
  | integer lval => formatLong lval
  | float dval => platform.formatDouble dval
  | string val safe => if escape && !safe then htmlspecialchars val else val
  | array _ items => expressionItems platform escape true items
  | map _ _ => []
  | user _ json => json.expression platform escape []
  | ptr _ _ => []
  | helper _ => []
  | closure _ _ _ => []

def expressionItems (platform : Platform) (escape : Bool) (first : Bool) : List (Value μ) → Str
  | [] => []
  | item :: rest =>
    (if first then [] else bytes ",") ++ expression platform escape item ++
      expressionItems platform escape false rest

end

end Value

end HandlebarsC
