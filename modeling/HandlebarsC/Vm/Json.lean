import HandlebarsC.Vm.Helpers

/-!
`handlebars_json.c`: JSON behind a user value, and the value it is converted to.
-/

namespace HandlebarsC

open Effect

namespace Exec

variable {μ κ : Type}

mutual

/-- `handlebars_value_init_json_object` and then `hbs_json_convert`, with what is inside. -/
def convertJson (hash : StringHash) : Json → Exec μ κ (Value μ)
  | .array items => do
    let addr ← allocate
    let items ← convertItems hash items
    pure (.array addr items)
  | .object entries => do
    let addr ← allocate
    let entries ← convertMembers hash [] entries
    pure (.map addr entries)
  | .null => pure .null
  | .boolean value => pure (.boolean value)
  | .int value => pure (.integer value)
  | .double value => pure (.float value)
  | .string value => pure (.string value false)

def convertItems (hash : StringHash) : List Json → Exec μ κ (List (Value μ))
  | [] => pure []
  | item :: rest => do
    let value ← convertJson hash item
    let values ← convertItems hash rest
    pure (value :: values)

def convertMembers (hash : StringHash) (map : List (Str × Value μ)) :
    List (Str × Json) → Exec μ κ (List (Str × Value μ))
  | [] => pure map
  | (key, item) :: rest => do
    let value ← convertJson hash item
    convertMembers hash (StrMap.update hash map key value) rest

end

/-- What an iterator shows at a step: its key, its index and its value. -/
structure Visit (μ : Type) where
  key : Option Str
  index : Nat
  cur : Value μ

/-- The steps of `hbs_json_iterator_next_array`. The cell is filled anew, but by a `null`. -/
def visitItems (stale : Value μ) (index : Nat) : List Json → Exec μ κ (List (Visit μ))
  | [] => pure []
  | item :: rest => do
    let cur ← valueOfJson stale item
    let later ← visitItems cur (index + 1) rest
    pure (⟨none, index, cur⟩ :: later)

/-- The steps of `hbs_json_iterator_next_object`, which never moves the index. -/
def visitMembers (stale : Value μ) : List (Str × Json) → Exec μ κ (List (Visit μ))
  | [] => pure []
  | (key, item) :: rest => do
    let cur ← valueOfJson stale item
    let later ← visitMembers cur rest
    pure (⟨some key, 0, cur⟩ :: later)

/-- `handlebars_value_iterator_init` and `handlebars_value_iterator_next` until it ends. The
first element of a JSON array is shown before its length is looked at. -/
def visits : Value μ → Exec μ κ (List (Visit μ))
  | .array _ items => pure (items.mapIdx fun index item => ⟨none, index, item⟩)
  | .map addr entries => do
    beginIteration (.map addr entries)
    endIteration (.map addr entries)
    pure (entries.mapIdx fun index entry => ⟨some entry.1, index, entry.2⟩)
  | .user _ (.array []) => pure [⟨none, 0, .null⟩]
  | .user _ (.array (item :: rest)) => visitItems .null 0 (item :: rest)
  | .user addr (.object entries) => do
    beginIteration (.user addr (.object entries))
    visitMembers .null entries
  | _ => pure []

end Exec

namespace Json

variable {μ : Type}

mutual

/-- The value that the conversion makes, but for where it is. -/
def native (hash : StringHash) : Json → Value μ
  | .null => .null
  | .boolean value => .boolean value
  | .int value => .integer value
  | .double value => .float value
  | .string value => .string value false
  | .array items => .array 0 (nativeItems hash items)
  | .object entries => .map 0 (nativeMembers hash [] entries)

def nativeItems (hash : StringHash) : List Json → List (Value μ)
  | [] => []
  | item :: rest => native hash item :: nativeItems hash rest

def nativeMembers (hash : StringHash) (map : List (Str × Value μ)) :
    List (Str × Json) → List (Str × Value μ)
  | [] => map
  | (key, item) :: rest => nativeMembers hash (StrMap.update hash map key (native hash item)) rest

end

end Json

namespace Value

variable {μ : Type}

mutual

/-- A value but for where it is. -/
def erase : Value μ → Value μ
  | .array _ items => .array 0 (eraseItems items)
  | .map _ entries => .map 0 (eraseEntries entries)
  | value => value

def eraseItems : List (Value μ) → List (Value μ)
  | [] => []
  | item :: rest => erase item :: eraseItems rest

def eraseEntries : List (Str × Value μ) → List (Str × Value μ)
  | [] => []
  | (key, value) :: rest => (key, erase value) :: eraseEntries rest

end

/-- A value but for where it is and whether it is JSON. -/
def plain (hash : StringHash) : Value μ → Value μ
  | .user _ json => json.native hash
  | value => value.erase

end Value

end HandlebarsC
