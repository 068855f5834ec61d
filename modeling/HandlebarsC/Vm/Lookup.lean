import HandlebarsC.Vm.Each

/-!
The three lookups of a path, and what a path stands for.
-/

namespace HandlebarsC

open Effect

/-- The index a segment is the decimal numeral of, among so many. -/
def indexOf (count : Nat) (part : Str) : Option Nat :=
  (List.range count).find? fun index => decimal index == part

namespace Value

variable {μ : Type} {platform : Platform}

/-- The element of an array that a segment names. -/
def item : Value μ → Str → Option (Value μ)
  | array _ items, part =>
    ((indexOf items.length part).bind fun index => items[index]?).map anywhere
  | user _ (.array items), part =>
    ((indexOf items.length part).bind fun index => items[index]?).bind Json.shown
  | _, _ => none

/-- Every segment names a member of the map it comes to, unless the value there is null. -/
def Entered (platform : Platform) : List Str → Value μ → Prop
  | [], _ => True
  | part :: rest, value =>
    value = .null ∨ ∃ child, value.member platform part = some child ∧ Entered platform rest child

/-- What is left after the members that are there. -/
def followed (platform : Platform) : List Str → Value μ → Value μ
  | [], value => value.anywhere
  | part :: rest, value =>
    match value.member platform part with
    | some child => followed platform rest child
    | none => value.anywhere

/-- What a path stands for, but for where it is. -/
def resolved (platform : Platform) : List Str → Value μ → Value μ
  | [], value => value.anywhere
  | part :: rest, value =>
    match (value.member platform part).or (value.item part) with
    | some child => resolved platform rest child
    | none => .null

@[simp] theorem item_anywhere (value : Value μ) (part : Str) :
    value.anywhere.item part = value.item part := by
  cases value with
  | user addr json => cases json <;> rfl
  | _ => rfl

theorem entered_anywhere (parts : List Str) (value : Value μ) :
    Entered platform parts value.anywhere ↔ Entered platform parts value := by
  cases parts with
  | nil => exact Iff.rfl
  | cons part rest => simp only [Entered, anywhere_eq_null, member_anywhere]

@[simp] theorem followed_anywhere (parts : List Str) (value : Value μ) :
    followed platform parts value.anywhere = followed platform parts value := by
  cases parts with
  | nil => exact anywhere_anywhere value
  | cons part rest => simp only [followed, member_anywhere, anywhere_anywhere]

@[simp] theorem resolved_anywhere (parts : List Str) (value : Value μ) :
    resolved platform parts value.anywhere = resolved platform parts value := by
  cases parts with
  | nil => exact anywhere_anywhere value
  | cons part rest => simp only [resolved, member_anywhere, item_anywhere]

theorem item_of_map {value : Value μ} {part : Str} (isMap : value.type = .map) :
    value.item part = none := by
  cases value with
  | user addr json =>
    cases json with
    | object entries => rfl
    | _ => cases isMap
  | map addr entries => rfl
  | boolean bval => cases bval <;> cases isMap
  | _ => cases isMap

theorem member_of_not_map {value : Value μ} {part : Str} (notMap : value.type ≠ .map) :
    value.member platform part = none := by
  cases value with
  | user addr json =>
    cases json with
    | object entries => exact absurd rfl notMap
    | _ => rfl
  | map addr entries => exact absurd rfl notMap
  | _ => rfl

theorem anywhere_size (value : Value μ) : sizeOf value.anywhere ≤ sizeOf value := by
  cases value with
  | user addr json => simp [anywhere]
  | _ => exact Nat.le_refl _

theorem shown_size {json : Json} {value : Value μ} (shown : json.shown = some value) :
    sizeOf value ≤ 1 + sizeOf json := by
  cases json with
  | string value =>
    cases shown
    simp only [string.sizeOf_spec, Json.string.sizeOf_spec, Bool.sizeOf_eq_one]
    omega
  | _ => cases shown <;> simp

/-- Every step goes to something smaller. -/
theorem member_size {value child : Value μ} {part : Str}
    (found : value.member platform part = some child) : sizeOf child < sizeOf value.anywhere := by
  cases value with
  | map addr entries =>
    obtain ⟨stored, there, rfl⟩ := Option.map_eq_some_iff.mp found
    obtain ⟨key, present, -⟩ := StrMap.find_some there
    have inside := List.sizeOf_lt_of_mem present
    have lighter := anywhere_size stored
    change sizeOf stored.anywhere < sizeOf (map addr entries)
    simp only [map.sizeOf_spec, Prod.mk.sizeOf_spec] at inside ⊢
    omega
  | user addr json =>
    cases json with
    | object entries =>
      obtain ⟨item, there, shown⟩ := Option.bind_eq_some_iff.mp found
      obtain ⟨entry, first, rfl⟩ := Option.map_eq_some_iff.mp there
      have inside := List.sizeOf_lt_of_mem (List.mem_of_find?_eq_some first)
      have lighter := shown_size shown
      simp only [anywhere, user.sizeOf_spec, Json.object.sizeOf_spec] at inside ⊢
      cases entry
      simp only [Prod.mk.sizeOf_spec] at inside lighter
      omega
    | _ => cases found
  | _ => cases found

theorem item_size {value child : Value μ} {part : Str}
    (found : value.item part = some child) : sizeOf child < sizeOf value.anywhere := by
  cases value with
  | array addr items =>
    obtain ⟨stored, there, rfl⟩ := Option.map_eq_some_iff.mp found
    obtain ⟨index, -, present⟩ := Option.bind_eq_some_iff.mp there
    have inside := List.sizeOf_lt_of_mem (List.mem_of_getElem? present)
    have lighter := anywhere_size stored
    change sizeOf stored.anywhere < sizeOf (array addr items)
    simp only [array.sizeOf_spec]
    omega
  | user addr json =>
    cases json with
    | array items =>
      obtain ⟨item, there, shown⟩ := Option.bind_eq_some_iff.mp found
      obtain ⟨index, -, present⟩ := Option.bind_eq_some_iff.mp there
      have inside := List.sizeOf_lt_of_mem (List.mem_of_getElem? present)
      have lighter := shown_size shown
      simp only [anywhere, user.sizeOf_spec, Json.array.sizeOf_spec] at inside ⊢
      omega
    | _ => cases found
  | _ => cases found

theorem step_size {value child : Value μ} {part : Str}
    (found : (value.member platform part).or (value.item part) = some child) :
    sizeOf child < sizeOf value.anywhere := by
  rcases Option.or_eq_some_iff.mp found with member | ⟨-, item⟩
  · exact member_size member
  · exact item_size item

theorem resolved_size (parts : List Str) (value : Value μ) :
    resolved platform parts value = .null ∨
      sizeOf (resolved platform parts value) ≤ sizeOf value.anywhere := by
  induction parts generalizing value with
  | nil => exact .inr (Nat.le_refl _)
  | cons part rest ih =>
    unfold resolved
    split
    · rename_i child found
      rcases ih child with none | smaller
      · exact .inl none
      · have lighter := step_size found
        have least := anywhere_size child
        exact .inr (by omega)
    · exact .inl rfl

/-- To follow members comes to what the path stands for just on an entered path. -/
theorem followed_eq_resolved {parts : List Str} {value : Value μ}
    (same : followed platform parts value = resolved platform parts value) :
    Entered platform parts value := by
  induction parts generalizing value with
  | nil => trivial
  | cons part rest ih =>
    unfold followed resolved at same
    cases member : value.member platform part with
    | some child =>
      rw [member] at same
      exact .inr ⟨child, member, ih same⟩
    | none =>
      rw [member, Option.none_or] at same
      dsimp only at same
      left
      split at same
      · rename_i child found
        -- No element contains the array that it is in.
        rcases resolved_size rest child with none | smaller
        · exact anywhere_eq_null.mp (same.trans none)
        · rw [← same] at smaller
          have lighter := item_size found
          have least := anywhere_size child
          omega
      · exact anywhere_eq_null.mp same

end Value

namespace Exec

variable {μ κ : Type} {env : Env μ κ} {platform : Platform}

/-- The element of an array that a segment names. -/
def itemFind (value : Value μ) (part : Str) : Exec μ κ (Option (Value μ)) :=
  match value with
  | .array _ items => pure ((indexOf items.length part).bind fun index => items[index]?)
  | .user _ (.array items) =>
    foundJson ((indexOf items.length part).bind fun index => items[index]?)
  | _ => pure none

/-- One step along a path: into a map by its key and into an array by an index. -/
def step (platform : Platform) (value : Value μ) (part : Str) : Exec μ κ (Option (Value μ)) :=
  if value.type = .map then mapFind platform value part else itemFind value part

/-- What a path stands for: null as soon as a segment cannot be resolved. -/
def resolve (platform : Platform) : List Str → Value μ → Exec μ κ (Value μ)
  | [], value => pure value
  | part :: rest, value => do
    match ← step platform value part with
    | some found => resolve platform rest found
    | none => pure .null

/-- `lookup_block_param` up to the parameter. -/
def blockParamStart (opcode : Opcode) : Exec μ κ (Option (Value μ)) := do
  let _ ← nonnull opcode.op2.array?
  match opcode.op1 with
  | .array (first :: second :: _) => do
    let stack ← stackOf StackField.blockParamStack
    blockParamValue (blockParamEntry stack (scanBlockParam first)) (scanBlockParam second)
  | _ => Proc.abort

/-- `lookup_data` up to its first segment. -/
def dataStart (env : Env μ κ) (opcode : Opcode) : Exec μ κ (Option (Value μ)) := do
  let depth ← nonnull opcode.op1.longval?
  let parts ← nonnull opcode.op2.array?
  let _ ← nonnull opcode.op3.boolval?
  let first ← nonnull parts.head?
  let vm ← readVm id
  let data ← parentData env.platform depth.toNat vm.data
  firstData env data first

/-- `lookup_on_context` up to the context. -/
def contextStart (env : Env μ κ) (opcode : Opcode) : Exec μ κ (Value μ) := do
  let parts ← nonnull opcode.op1.array?
  let _ ← nonnull opcode.op3.boolval?
  let _ ← nonnull opcode.op4.boolval?
  let first ← nonnull parts.head?
  pushRoot env false first
  popAssert StackField.stack

/-- No flag makes a lookup an error or looks in the outer contexts. -/
structure Lenient (flags : Flags) : Prop where
  strict : flags.has Flag.strict = false
  assumeObjects : flags.has Flag.assumeObjects = false
  compat : flags.has Flag.compat = false

/-- From where a lookup is at a value, it pushes what the path stands for. -/
def PushesResolved (env : Env μ κ) (value : Value μ) (parts : List Str)
    (lookup : Exec μ κ Unit) (machine after : Machine μ κ) (log : List (Event μ κ)) : Prop :=
  lookup machine = Proc.logged log ((do
    let value ← resolve env.platform parts value
    push StackField.stack value) after)

/-- The three lookups of the rest of a path from a value push what it stands for. -/
structure LookupsAgree (env : Env μ κ) (value : Value μ) (parts : List Str) : Prop where
  blockParam : ∀ (opcode : Opcode) name machine after log, opcode.op2 = .array (name :: parts) →
    blockParamStart opcode machine = (.ok (some value) after, log) →
      PushesResolved env value parts (acceptLookupBlockParam env opcode) machine after log
  data : ∀ (opcode : Opcode) name machine after log, Lenient machine.vm.flags →
    opcode.op2 = .array (name :: parts) → dataStart env opcode machine = (.ok (some value) after, log) →
      PushesResolved env value parts (acceptLookupData env opcode) machine after log
  context : ∀ (opcode : Opcode) machine after log, Lenient machine.vm.flags →
    opcode.op1 = .array parts → contextStart env opcode machine = (.ok value after, log) →
      PushesResolved env value parts (acceptLookupOnContext env opcode) machine after log

theorem lookupBlockParam_eq {opcode : Opcode} {name : Str} {parts : List Str}
    (path : opcode.op2 = .array (name :: parts)) :
    acceptLookupBlockParam env opcode = (do
      match ← blockParamStart opcode with
      | some value => do
        let value ← followParts env.platform value parts
        push StackField.stack value
      | none => push StackField.stack .null : Exec μ κ Unit) := by
  unfold acceptLookupBlockParam blockParamStart
  simp only [path, Operand.array?, nonnull_some, pure_bind]
  cases opcode.op1 with
  | array operands =>
    rcases operands with _ | ⟨first, _ | ⟨second, rest⟩⟩
    · rfl
    · rfl
    · exact (bind_assoc ..).symm
  | _ => rfl

theorem lookupData_eq {opcode : Opcode} {name : Str} {parts : List Str} {machine : Machine μ κ}
    (path : opcode.op2 = .array (name :: parts)) (lenient : Lenient machine.vm.flags) :
    acceptLookupData env opcode machine = (do
      match ← dataStart env opcode with
      | some value =>
        match ← laterData env false parts value with
        | some value => push StackField.stack value
        | none => raise (notDefined name opcode.loc)
      | none => push StackField.stack .null : Exec μ κ Unit) machine := by
  unfold acceptLookupData dataStart
  simp only [path, Operand.array?, List.head?_cons, List.tail_cons, nonnull_some, pure_bind]
  cases opcode.op1.longval? with
  | none => rfl
  | some depth =>
    cases opcode.op3.boolval? with
    | none => rfl
    | some terminal =>
      simp only [nonnull_some, pure_bind, bind_assoc]
      rw [Proc.bind_ran (readVm_ran id machine), Proc.bind_ran (readVm_ran id machine)]
      simp only [id, lenient.strict, lenient.assumeObjects, Bool.false_or, Bool.false_and]
      refine congrFun (bind_congr fun data => bind_congr fun found => ?_) machine
      cases found with
      | none => rfl
      | some value =>
        refine bind_congr fun later => ?_
        cases later with
        | none => rfl
        | some value => exact if_neg fun both => Bool.false_ne_true both.2

theorem lookupOnContext_eq {opcode : Opcode} {parts : List Str} {machine : Machine μ κ}
    (path : opcode.op1 = .array parts) (lenient : Lenient machine.vm.flags) :
    acceptLookupOnContext env opcode machine = (do
      let value ← contextStart env opcode
      match ← walkContext env false false (-1) parts value with
      | .found value => push StackField.stack value
      | .missing _ => push StackField.stack .null
      | .err part => raise (notDefined part opcode.loc) : Exec μ κ Unit) machine := by
  unfold acceptLookupOnContext contextStart
  simp only [path, Operand.array?, nonnull_some, pure_bind]
  cases opcode.op3.boolval? with
  | none => rfl
  | some terminal =>
    cases opcode.op4.boolval? with
    | none => rfl
    | some isScoped =>
      cases parts with
      | nil => rfl
      | cons first rest =>
        simp only [List.head?_cons, nonnull_some, pure_bind, bind_assoc]
        rw [Proc.bind_ran (readVm_ran _ machine)]
        simp only [lenient.strict, lenient.assumeObjects, lenient.compat, Bool.or_false,
          Bool.and_false, Bool.false_and]
        rfl

theorem itemFind_reads (value : Value μ) (part : Str) :
    Reads (itemFind value part : Exec μ κ _) fun found =>
      found.map Value.anywhere = value.item part := by
  cases value with
  | user addr json =>
    cases json with
    | array items => exact foundJson_reads _
    | _ => exact reads_pure rfl
  | _ => exact reads_pure rfl

theorem step_reads (value : Value μ) (part : Str) :
    Reads (step platform value part : Exec μ κ _) fun found =>
      found.map Value.anywhere = (value.member platform part).or (value.item part) := by
  unfold step
  by_cases isMap : value.type = .map
  · rw [if_pos isMap, Value.item_of_map isMap, Option.or_none]
    exact mapFind_reads value part
  · rw [if_neg isMap, Value.member_of_not_map isMap, Option.none_or]
    exact itemFind_reads value part

theorem followParts_reads (parts : List Str) (value : Value μ) :
    Reads (followParts platform value parts : Exec μ κ _) fun result =>
      result.anywhere = Value.followed platform parts value := by
  induction parts generalizing value with
  | nil => exact reads_pure rfl
  | cons part rest ih =>
    unfold followParts Value.followed
    refine reads_bind (mapFind_reads value part) fun found same => ?_
    rw [← same]
    cases found with
    | none => exact reads_pure rfl
    | some child => 
      rw [Option.map_some]
      simp only [Value.followed_anywhere]
      exact ih child

theorem resolve_reads (parts : List Str) (value : Value μ) :
    Reads (resolve platform parts value : Exec μ κ _) fun result =>
      result.anywhere = Value.resolved platform parts value := by
  induction parts generalizing value with
  | nil => exact reads_pure rfl
  | cons part rest ih =>
    unfold resolve Value.resolved
    refine reads_bind (step_reads value part) fun found same => ?_
    rw [← same]
    cases found with
    | none => exact reads_pure rfl
    | some child => 
      rw [Option.map_some]
      simp only [Value.resolved_anywhere]
      exact ih child

/-- On an entered path a lookup that enters maps by their keys and is done with a null finds what
the path stands for, whatever it does with a key that is missing. -/
theorem entered_lookup (lookup : List Str → Value μ → Exec μ κ α) (done : Value μ → Exec μ κ α)
    (missed : List Str → Value μ → Exec μ κ α) (nil : ∀ value, lookup [] value = done value)
    (null : ∀ part rest, lookup (part :: rest) .null = done .null)
    (map : ∀ part rest value, value.type = .map → lookup (part :: rest) value = (do
      match ← mapFind platform value part with
      | some found => lookup rest found
      | none => missed (part :: rest) value))
    {parts : List Str} {value : Value μ} (entered : Value.Entered platform parts value) :
    lookup parts value = resolve platform parts value >>= done := by
  induction parts generalizing value with
  | nil => rw [nil, resolve, pure_bind]
  | cons part rest ih =>
    rcases entered with rfl | ⟨child, member, later⟩
    · rw [null]
      rfl
    · have isMap : value.type = .map := by
        by_contra notMap
        rw [Value.member_of_not_map notMap] at member
        cases member
      rw [map part rest value isMap, resolve, step, if_pos isMap, bind_assoc]
      refine bind_reads_congr (mapFind_reads value part) fun found same => ?_
      rw [member] at same
      obtain ⟨there, rfl, here⟩ := Option.map_eq_some_iff.mp same
      refine ih ?_
      rw [← Value.entered_anywhere, here]
      exact later

theorem followParts_entered {parts : List Str} {value : Value μ}
    (entered : Value.Entered env.platform parts value) :
    followParts env.platform value parts = (resolve env.platform parts value : Exec μ κ _) := by
  have walked := entered_lookup (κ := κ) (fun parts value => followParts env.platform value parts)
    pure (fun _ value => pure value) (fun value => rfl) (fun part rest => rfl)
    (fun part rest value _ => rfl) entered
  rw [bind_pure] at walked
  exact walked

theorem laterData_entered {parts : List Str} {value : Value μ}
    (entered : Value.Entered env.platform parts value) :
    laterData env false parts value =
      (resolve env.platform parts value >>= fun value => pure (some value) : Exec μ κ _) := by
  have skips : ∀ parts, laterData env false parts .null = (pure (some .null) : Exec μ κ _) := by
    intro parts
    induction parts with
    | nil => rfl
    | cons part rest ih => exact ih
  refine entered_lookup _ _ (fun parts value => laterData env false parts.tail value)
    (fun value => rfl) (fun part rest => skips (part :: rest)) ?_ entered
  intro part rest value isMap
  rw [laterData, if_pos isMap]
  rfl

/-- What `lookup_on_context` does with the end of its walk. -/
def pushWalked (opcode : Opcode) : Walked μ → Exec μ κ Unit
  | .found value => push StackField.stack value
  | .missing _ => push StackField.stack .null
  | .err part => raise (notDefined part opcode.loc)

theorem walkContext_entered {parts : List Str} {value : Value μ} (opcode : Opcode) (index : Int)
    (entered : Value.Entered env.platform parts value) :
    (walkContext env false false index parts value >>= pushWalked opcode) =
      (resolve env.platform parts value >>= push StackField.stack : Exec μ κ _) := by
  refine entered_lookup
    (fun parts value => walkContext env false false index parts value >>= pushWalked opcode) _
    (fun parts _ => pushWalked opcode (.missing (parts.headD []))) (fun value => rfl)
    (fun part rest => rfl) ?_ entered
  intro part rest value isMap
  rw [walkContext, if_pos isMap, bind_assoc]
  refine bind_congr fun found => ?_
  cases found <;> rfl

/-- A VM in which a value is the first block parameter. -/
def paramMachine (value : Value μ) : Machine μ κ :=
  ⟨{ vmCtor true with
    stackSet := some { Stacks.empty with blockParamStack := ⟨[.array 2 [value]], 0⟩ }
    alloc := 3 }, []⟩

/-- `x` and the rest of its path, where `x` is the first block parameter. -/
def paramOpcode (parts : List Str) : Opcode where
  type := .lookupBlockParam
  op1 := .array [bytes "0", bytes "0"]
  op2 := .array (bytes "x" :: parts)
  op3 := .null false
  op4 := .null false
  loc := LocInfo.zero

theorem paramMachine_start (parts : List Str) (value : Value μ) :
    blockParamStart (paramOpcode parts) (paramMachine value : Machine μ κ) =
      (.ok (some value) (paramMachine value), []) := rfl

/-- The top of the operand stack after a run that returned. -/
def topAfter (ran : Outcome (Machine μ κ) α × List (Event μ κ)) : Option (Value μ) :=
  match ran.1 with
  | .ok _ after => after.vm.stackSet.bind fun stackSet => stackSet.stack.top
  | _ => none

theorem push_topAfter {proc : Exec μ κ (Value μ)} {holds : Value μ → Prop}
    (reads : Reads proc holds) (value : Value μ) : ∃ result, holds result ∧
      topAfter ((proc >>= push StackField.stack) (paramMachine value)) = some result := by
  obtain ⟨result, alloc, ran, held⟩ := reads (paramMachine value)
  refine ⟨result, held, ?_⟩
  rw [Proc.bind_ran ran]
  rfl

/-- The three lookups agree on just the paths that enter one map after the other by keys that
are there, until their end or until a null. -/
theorem lookups_agree_iff (env : Env μ κ) (value : Value μ) (parts : List Str) :
    LookupsAgree env value parts ↔ Value.Entered env.platform parts value := by
  constructor
  · intro agree
    have same := agree.blockParam (paramOpcode parts) (bytes "x") (paramMachine value)
      (paramMachine value) [] rfl (paramMachine_start parts value)
    unfold PushesResolved at same
    rw [lookupBlockParam_eq rfl, Proc.bind_logged (paramMachine_start parts value)] at same
    obtain ⟨left, followed, leftTop⟩ := push_topAfter (followParts_reads parts value) value
    obtain ⟨right, resolved, rightTop⟩ := push_topAfter (resolve_reads parts value) value
    have tops := congrArg topAfter same
    change topAfter ((followParts env.platform value parts >>= push StackField.stack)
      (paramMachine value)) = topAfter ((resolve env.platform parts value >>=
        push StackField.stack) (paramMachine value)) at tops
    rw [leftTop, rightTop] at tops
    cases tops
    exact Value.followed_eq_resolved (followed.symm.trans resolved)
  · intro entered
    constructor
    · intro opcode name machine after log path started
      unfold PushesResolved
      rw [lookupBlockParam_eq path, Proc.bind_logged started]
      dsimp only
      rw [followParts_entered entered]
    · intro opcode name machine after log lenient path started
      unfold PushesResolved
      rw [lookupData_eq path lenient, Proc.bind_logged started]
      dsimp only
      rw [laterData_entered entered, bind_assoc]
      simp only [pure_bind]
    · intro opcode machine after log lenient path started
      unfold PushesResolved
      rw [lookupOnContext_eq path lenient, Proc.bind_logged started]
      exact congrArg (Proc.logged log) (congrFun (walkContext_entered opcode (-1) entered) after)

/-- `{{x.b}}` of a block parameter that has no `b` is the parameter. -/
theorem lookups_disagree : ¬LookupsAgree pairEnv (.string (bytes "a") false) [bytes "b"] := by
  intro agree
  have same := agree.blockParam (paramOpcode [bytes "b"]) (bytes "x")
    (paramMachine (.string (bytes "a") false)) (paramMachine (.string (bytes "a") false)) [] rfl rfl
  have tops := congrArg (fun ran => (topAfter ran).map Value.realType) same
  revert tops
  decide

end Exec

end HandlebarsC
