import HandlebarsC.Render.Meaning

/-!
Properties of values that pass to their members, and that a template passes on: what it makes of
values that have such a property has it too.
-/

namespace HandlebarsC

open Exec (eachKey eachData elements)

namespace Value

variable {μ : Type}

mutual

/-- The property holds of the value and of everything in it. -/
def All (P : Value μ → Prop) : Value μ → Prop
  | array addr items => P (array addr items) ∧ AllItems P items
  | map addr entries => P (map addr entries) ∧ AllEntries P entries
  | null => P null
  | boolean bval => P (boolean bval)
  | integer lval => P (integer lval)
  | float dval => P (float dval)
  | string val safe => P (string val safe)
  | user addr json => P (user addr json)
  | ptr addr module => P (ptr addr module)
  | helper fn => P (helper fn)
  | closure addr fn localv => P (closure addr fn localv)

def AllItems (P : Value μ → Prop) : List (Value μ) → Prop
  | [] => True
  | item :: rest => All P item ∧ AllItems P rest

def AllEntries (P : Value μ → Prop) : List (Str × Value μ) → Prop
  | [] => True
  | (_, item) :: rest => All P item ∧ AllEntries P rest

end

variable {P : Value μ → Prop}

theorem allItems_iff {items : List (Value μ)} :
    AllItems P items ↔ ∀ item ∈ items, item.All P := by
  induction items with
  | nil => simp [AllItems]
  | cons item rest ih => rw [AllItems, ih, List.forall_mem_cons]

theorem allEntries_iff {entries : List (Str × Value μ)} :
    AllEntries P entries ↔ ∀ entry ∈ entries, entry.2.All P := by
  induction entries with
  | nil => simp [AllEntries]
  | cons entry rest ih =>
    obtain ⟨key, item⟩ := entry
    rw [AllEntries, ih, List.forall_mem_cons]

/-- What the library makes itself has the property. -/
class Fresh (P : Value μ → Prop) : Prop where
  null : P null
  boolean (bval : Bool) : P (boolean bval)
  integer (lval : Int) : P (integer lval)
  string (val : Str) : P (string val false)

instance [Fresh P] : Fresh (All P) :=
  ⟨Fresh.null (P := P), Fresh.boolean (P := P), Fresh.integer (P := P), Fresh.string (P := P)⟩

/-- No function, pointer or JSON, and no map that is not at an owned address -/
def Local (owned : Nat → Prop) : Value μ → Prop
  | map addr _ => owned addr
  | user .. | ptr .. | helper _ | closure .. => False
  | _ => True

instance (owned : Nat → Prop) : Fresh (Local owned : Value μ → Prop) :=
  ⟨trivial, fun _ => trivial, fun _ => trivial, fun _ => trivial⟩

/-- No function, pointer or JSON is in the value, and its maps are at owned addresses. -/
abbrev Inert (owned : Nat → Prop) (value : Value μ) : Prop := value.All (Local owned)

variable {owned : Nat → Prop}

theorem Inert.notCallable {value : Value μ} (inert : value.Inert owned) :
    value.isCallable = false := by
  cases value with
  | helper | closure => exact inert.elim
  | _ => rfl

theorem Inert.native {value : Value μ} (inert : value.Inert owned) : Exec.Native value := by
  cases value with
  | user => exact inert.elim
  | _ => trivial

end Value

open Value (Fresh)

namespace Render

variable {μ : Type} {P : Value μ → Prop} {platform : Platform} {value : Value μ}

section Values

theorem entry_all (holds : value.All P) (found : entry platform value key = some child) :
    child.All P := by
  cases value with
  | map addr entries =>
    obtain ⟨stored, present, -⟩ := StrMap.find_some found
    exact Value.allEntries_iff.mp holds.2 _ present
  | _ => cases found

theorem element_all {index : Int} (holds : value.All P)
    (found : element value index = some child) : child.All P := by
  cases value with
  | array addr items =>
    by_cases negative : index < 0
    · rw [element, if_pos negative] at found
      cases found
    · rw [element, if_neg negative] at found
      exact Value.allItems_iff.mp holds.2 _ (List.mem_of_getElem? found)
  | _ => cases found

theorem indexed_all (holds : value.All P)
    (found : (indexed index part value).2 = some child) : child.All P := by
  unfold indexed at found
  split at found
  · exact element_all holds found
  · exact element_all holds found
  · cases found

theorem follow_all (holds : value.All P) (parts : List Str) :
    (follow platform value parts).All P := by
  induction parts generalizing value with
  | nil => exact holds
  | cons part rest ih =>
    rw [follow]
    cases found : entry platform value part with
    | none => exact holds
    | some child => exact ih (entry_all holds found)

theorem walk_all (holds : value.All P)
    (found : walk platform isStrict assumeObjects index parts value = .found child) :
    child.All P := by
  induction parts generalizing value index with
  | nil =>
    cases found
    exact holds
  | cons part rest ih =>
    rw [walk] at found
    split at found
    · cases member : entry platform value part with
      | none =>
        rw [member] at found
        dsimp only at found
        split at found <;> cases found
      | some next =>
        rw [member] at found
        exact ih (entry_all holds member) found
    · split at found
      · rcases item : indexed index part value with ⟨last, next⟩
        rw [item] at found
        cases next with
        | none =>
          dsimp only at found
          split at found <;> cases found
        | some next => exact ih (indexed_all holds (congrArg Prod.snd item)) found
      · split at found <;> cases found

theorem dataRest_all (holds : value.All P)
    (found : dataRest platform isStrict parts value = some child) : child.All P := by
  induction parts generalizing value with
  | nil =>
    cases found
    exact holds
  | cons part rest ih =>
    rw [dataRest] at found
    cases member : entry platform value part with
    | none =>
      rw [member] at found
      dsimp only at found
      split at found
      · cases found
      · exact ih holds found
    | some next =>
      rw [member] at found
      exact ih (entry_all holds member) found

theorem outerData_all (holds : ∀ entry ∈ entries, entry.2.All P) (depth : Nat) :
    ∀ entry ∈ outerData platform depth entries, entry.2.All P := by
  induction depth generalizing entries with
  | zero => exact holds
  | succ depth ih =>
    rw [outerData]
    cases found : StrMap.find platform.hash entries (bytes "_parent") with
    | none => exact ih holds
    | some parent =>
      obtain ⟨key, present, -⟩ := StrMap.find_some found
      have inside : parent.All P := holds _ present
      cases parent with
      | map addr members => exact ih (Value.allEntries_iff.mp inside.2)
      | _ => simp

theorem eachData_all [Fresh P] {platform : Platform} {data : StrMap (Value μ)}
    (holds : ∀ entry ∈ data, entry.2.All P) (index last : Nat) {key : Value μ}
    (keyHolds : key.All P) :
    ∀ entry ∈ eachData platform data index last key, entry.2.All P := by
  have update : ∀ (map : StrMap (Value μ)) (name : Str) (value : Value μ),
      (∀ entry ∈ map, entry.2.All P) → value.All P →
      ∀ entry ∈ StrMap.update platform.hash map name value, entry.2.All P := by
    intro map name value before here entry member
    rcases StrMap.mem_update member with same | ⟨old, there, same⟩
    · rw [same]
      exact here
    · rw [← same]
      exact before old there
  unfold eachData
  exact update _ _ _ (update _ _ _ (update _ _ _ (update _ _ _ holds (Fresh.integer _)) keyHolds)
    (Fresh.boolean _)) (Fresh.boolean _)

theorem eachKey_all [Fresh P] (index : Nat) (key : Option Str) :
    (eachKey index key : Value μ).All P := by
  cases key with
  | none => exact Fresh.integer index
  | some key => exact Fresh.string key

theorem updateAll_all {hash : StringHash} {map other : StrMap (Value μ)}
    (before : ∀ entry ∈ map, entry.2.All P) (more : ∀ entry ∈ other, entry.2.All P) :
    ∀ entry ∈ StrMap.updateAll hash map other, entry.2.All P := by
  induction other generalizing map with
  | nil => exact before
  | cons first rest ih =>
    obtain ⟨here, later⟩ := List.forall_mem_cons.mp more
    rw [StrMap.updateAll_cons]
    refine ih ?_ later
    intro entry member
    rcases StrMap.mem_update member with same | ⟨old, there, same⟩
    · rw [same]
      exact here
    · rw [← same]
      exact before old there

theorem elements_all {context : Value μ} (holds : context.All P) :
    ∀ item ∈ elements context, item.2.All P := by
  intro item member
  cases context with
  | array addr items =>
    obtain ⟨value, present, rfl⟩ := List.mem_map.mp member
    exact Value.allItems_iff.mp holds.2 value present
  | map addr entries =>
    obtain ⟨value, present, rfl⟩ := List.mem_map.mp member
    exact Value.allEntries_iff.mp holds.2 value present
  | _ => cases member

end Values

/-- The property holds of everything in the scope. -/
structure Scope.All (P : Value μ → Prop) (scope : Scope μ) : Prop where
  contexts : ∀ value ∈ scope.contexts, value.All P
  data : ∀ entry ∈ scope.data, entry.2.All P
  blockParams : ∀ items ∈ scope.blockParams, ∀ value ∈ items, value.All P

theorem Scope.All.context [Fresh P] {scope : Scope μ} (holds : scope.All P) (depth : Nat) :
    (scope.context depth).All P := by
  unfold Scope.context
  cases found : scope.contexts[depth]? with
  | none => exact Fresh.null
  | some value => exact holds.contexts _ (List.mem_of_getElem? found)

theorem Scope.All.this [Fresh P] {scope : Scope μ} (holds : scope.All P) :
    scope.this.All P := by
  unfold Scope.this
  cases found : scope.contexts with
  | nil => exact Fresh.null
  | cons value rest => exact holds.contexts _ (by simp [found])

/-- The scope of a block whose context, data and parameters have the property -/
theorem Scope.All.enter {scope : Scope μ} {context : Value μ} {data : Option (StrMap (Value μ))}
    {blockParams : Option (List (Value μ))} (platform : Platform) (holds : scope.All P)
    (inside : context.All P) (given : ∀ entries ∈ data, ∀ entry ∈ entries, entry.2.All P)
    (params : ∀ items ∈ blockParams, ∀ item ∈ items, item.All P) :
    (scope.enter platform context data blockParams).All P := by
  refine ⟨?_, ?_, ?_⟩
  · intro value member
    change value ∈ Scopes.withContext platform context scope.contexts at member
    unfold Scopes.withContext at member
    split at member
    · split at member
      · exact holds.contexts value member
      · exact List.forall_mem_cons.mpr ⟨inside, holds.contexts⟩ value member
    · rw [List.mem_singleton.mp member]
      exact inside
  · cases data with
    | none => exact holds.data
    | some entries => exact given entries rfl
  · cases blockParams with
    | none => exact holds.blockParams
    | some items => exact List.forall_mem_cons.mpr ⟨params items rfl, holds.blockParams⟩

/-- A scope without functions, pointers and JSON. -/
structure Scope.Inert (owned : Nat → Prop) (scope : Scope μ) : Prop
    extends scope.All (Value.Local owned) where
  iterating : ∀ addr ∈ scope.iterating, owned addr

section Meanings

variable [Fresh P] {mode : Mode} {names : List BlockParamPair} {scope : Scope μ} {path : PathNode}

theorem dataStart_all {mode : Mode} {scope : Scope μ} {data : StrMap (Value μ)} {first : Str}
    (holds : scope.All P) (entries : ∀ entry ∈ data, entry.2.All P)
    (start : dataStart mode scope data first = .ok (some value)) : value.All P := by
  unfold dataStart at start
  cases found : StrMap.find mode.platform.hash data first with
  | some stored =>
    rw [found] at start
    cases start
    obtain ⟨key, present, -⟩ := StrMap.find_some found
    exact entries _ present
  | none =>
    rw [found] at start
    dsimp only at start
    split at start
    · cases start
      exact holds.this
    · split at start <;> cases start

theorem pathRoot_all {scope : Scope μ} (mode : Mode) (holds : scope.All P)
    (path : PathNode) (first : Str) : (pathRoot mode scope path first).All P := by
  unfold pathRoot
  split
  · cases found : scope.contexts.find? fun value => (entry mode.platform value first).isSome with
    | none => exact Fresh.null
    | some value => exact holds.contexts _ (List.mem_of_find?_eq_some found)
  · exact holds.context path.depth

theorem dataValue_all (holds : scope.All P)
    (found : dataValue mode scope path first rest = .ok value) : value.All P := by
  unfold dataValue at found
  cases start : dataStart mode scope (outerData mode.platform path.depth scope.data) first with
  | error failure =>
    rw [start] at found
    cases found
  | ok start' =>
    rw [start] at found
    cases start' with
    | none =>
      dsimp only [bind, Except.bind] at found
      split at found
      · cases found
      · cases found
        exact Fresh.null
    | some inner =>
      have inside := dataStart_all holds (outerData_all holds.data path.depth) start
      dsimp only [bind, Except.bind] at found
      split at found
      · rename_i result later
        split at found
        · cases found
        · cases found
          exact dataRest_all inside later
      · cases found

theorem contextValue_all (holds : scope.All P)
    (found : contextValue mode scope path first = .ok value) : value.All P := by
  unfold contextValue at found
  dsimp only at found
  split at found
  · rename_i result walked
    cases found
    exact walk_all (pathRoot_all mode holds path first) walked
  · split at found
    · cases found
    · cases found
      exact Fresh.null
  · cases found

theorem blockParamValue_all (holds : scope.All P) (depth number : Nat) (rest : List Str) :
    (blockParamValue mode scope depth number rest).All P := by
  unfold blockParamValue
  cases found : scope.blockParams[depth]?.bind (·[number]?) with
  | none => exact Fresh.null
  | some value =>
    obtain ⟨items, there, inside⟩ := Option.bind_eq_some_iff.mp found
    exact follow_all (holds.blockParams items (List.mem_of_getElem? there) value
      (List.mem_of_getElem? inside)) rest

theorem pathValue_all (holds : scope.All P)
    (found : pathValue mode names scope path = .ok value) : value.All P := by
  unfold pathValue at found
  split at found
  · cases found
    exact blockParamValue_all holds _ _ _
  · split at found
    · cases found
      exact holds.context path.depth
    · split at found
      · exact dataValue_all holds found
      · exact contextValue_all holds found

theorem literalValue_all (platform : Platform) (type : LiteralType) (text : Str) :
    (literalValue platform type text : Value μ).All P := by
  have textual : (textLiteral text : Value μ).All P := by
    unfold textLiteral
    split
    · exact Fresh.null
    · exact Fresh.string text
  cases type with
  | number =>
    unfold literalValue
    dsimp only
    split
    · exact Fresh.integer 0
    · cases platform.numberLong text with
      | none => exact textual
      | some number => exact Fresh.integer number
  | boolean => exact Fresh.boolean _
  | string => exact Fresh.string text
  | nul | undefined => exact Fresh.null

end Meanings

section Expressions

variable [Fresh P] {mode : Mode} {scope : Scope μ} {call : Invocation μ} {names : List BlockParamPair}
  {loc : LocInfo}

theorem textValue_all {text : Meaning Str} (made : textValue text = .ok value) :
    (value : Value μ).All P := by
  unfold textValue at made
  cases text with
  | error failure => cases made
  | ok text =>
    cases made
    exact Fresh.string text

theorem lookupValue_all {context field : Value μ} (inside : context.All P)
    (found : lookupValue mode context field = .ok value) : value.All P := by
  unfold lookupValue at found
  split at found
  · cases found
    cases member : entry mode.platform context (field.toText mode.platform) with
    | none => exact Fresh.null
    | some value => exact entry_all inside member
  · split at found
    · cases member : element context field.intval with
      | none =>
        rw [member] at found
        cases found
      | some value =>
        rw [member] at found
        cases found
        exact element_all inside member
    · cases found
      exact Fresh.null

/-- What a built-in helper returns is a value like those it was given. -/
theorem callBuiltin_all (builtin : Builtin) (args : ∀ value ∈ call.args, value.All P)
    (called : callBuiltin mode scope call builtin = .ok value) : value.All P := by
  unfold callBuiltin at called
  split at called
  · exact textValue_all called
  · exact textValue_all called
  · cases called
    exact Fresh.null
  · split at called <;> cases called
  · cases called
  · exact textValue_all called
  · exact textValue_all called
  · cases called
  · exact textValue_all called
  · cases called
  · exact textValue_all called
  · cases called
  · split at called
    · cases called
      exact Fresh.null
    · cases called
  · rename_i context field rest given
    exact lookupValue_all (args context (by simp [given])) called
  · cases called
  · cases called
    exact Fresh.null

theorem argument_ok {value : Meaning (Value μ)} (passed : argument mode value = .ok result) :
    value = .ok result := by
  unfold argument at passed
  split at passed
  · cases passed
  · split at passed
    · cases passed
    · exact passed

theorem helperValue_all {args : List (Value μ)} {hash : StrMap (Value μ)} {path : PathNode}
    {program inverse : Body μ} (holds : ∀ value ∈ args, value.All P)
    (called : helperValue mode names scope loc path args hash program inverse = .ok value) :
    value.All P := by
  unfold helperValue at called
  dsimp only at called
  split at called
  · split at called
    · exact callBuiltin_all _ holds called
    · cases called
  · cases looked : pathValue mode names scope { path with falsy := true, strict := true } with
    | error failure =>
      rw [looked] at called
      cases called
    | ok found =>
      rw [looked] at called
      exact callBuiltin_all _ holds called

theorem callHelper_all {args : Meaning (List (Value μ))} {hash : Meaning (StrMap (Value μ))}
    {path : PathNode} {program inverse : Body μ}
    (holds : ∀ values, args = .ok values → ∀ value ∈ values, value.All P)
    (called : callHelper mode names scope loc path args hash program inverse = .ok value) :
    value.All P := by
  cases args with
  | error failure => cases called
  | ok values =>
    cases hash with
    | error failure => cases called
    | ok entries => exact helperValue_all (holds values rfl) called

theorem expression_all {args : Meaning (List (Value μ))} {hash : Meaning (StrMap (Value μ))}
    {path : PathNode} {isHelperExpression : Bool} (inside : scope.All P)
    (holds : ∀ values, args = .ok values → ∀ value ∈ values, value.All P)
    (meant : expression mode names scope loc path args hash isHelperExpression = .ok value) :
    value.All P := by
  unfold expression at meant
  split at meant
  · exact callHelper_all holds meant
  · exact pathValue_all inside meant

theorem nameValue_all {name : HelperName} (inside : scope.All P)
    (meant : nameValue mode names scope name = .ok value) : value.All P := by
  cases name with
  | path path => exact pathValue_all inside meant
  | literal type loc text =>
    cases meant
    exact literalValue_all _ _ _

omit [Fresh P]

mutual

theorem paramValue_all [Fresh P] {value : Value μ} (inside : scope.All P) (param : Param)
    (meant : paramValue mode names scope param = .ok value) : value.All P := by
  cases param with
  | name name =>
    rw [paramValue] at meant
    exact nameValue_all inside meant
  | sexpr loc path params hash =>
    rw [paramValue] at meant
    exact expression_all inside (fun values => paramValues_all inside params) meant

theorem paramValues_all [Fresh P] {values : List (Value μ)} (inside : scope.All P) (params : List Param)
    (meant : paramValues mode names scope params = .ok values) :
    ∀ value ∈ values, value.All P := by
  cases params with
  | nil =>
    cases meant
    simp
  | cons param rest =>
    rw [paramValues] at meant
    cases first : argument mode (paramValue mode names scope param) with
    | error failure =>
      rw [first] at meant
      cases meant
    | ok value =>
      cases others : paramValues mode names scope rest with
      | error failure =>
        rw [first, others] at meant
        cases meant
      | ok later =>
        rw [first, others] at meant
        cases meant
        exact List.forall_mem_cons.mpr ⟨paramValue_all inside param (argument_ok first),
          paramValues_all inside rest others⟩

end

end Expressions

end Render

end HandlebarsC
