import HandlebarsC.Render.Machine
import Mathlib.Data.List.TakeWhile

/-!
The opcodes that look values up do what the meaning of a path says.
-/

namespace HandlebarsC

open Effect Exec

theorem digitsValue_decimal (number : Nat) : digitsValue (decimal number) = number := by
  have fold : ∀ (chars : List Char) (start : Nat), (∀ c ∈ chars, 48 ≤ c.toNat ∧ c.toNat ≤ 57) →
      (chars.map fun c => UInt8.ofNat c.toNat).foldl
        (fun value digit => value * 10 + (digit.toNat - 48)) start =
      Nat.ofDigitChars 10 chars start := by
    intro chars
    induction chars with
    | nil => intro start _; rfl
    | cons c rest ih =>
      intro start digits
      obtain ⟨here, later⟩ := List.forall_mem_cons.mp digits
      have small : (UInt8.ofNat c.toNat).toNat = c.toNat :=
        UInt8.toNat_ofNat_of_lt' (Nat.lt_of_le_of_lt here.2 (by decide))
      rw [List.map_cons, List.foldl_cons, ih _ later, Nat.ofDigitChars_cons, small, Nat.mul_comm]
      rfl
  unfold digitsValue decimal
  rw [fold _ 0 fun c member => digit_bounds member]
  exact Nat.ofDigitChars_ten_toDigits

theorem isDigit_of_mem_decimal (member : char ∈ decimal number) : isDigit char = true := by
  obtain ⟨c, present, rfl⟩ := List.mem_map.mp member
  have bounds := digit_bounds present
  have small : (UInt8.ofNat c.toNat).toNat = c.toNat :=
    UInt8.toNat_ofNat_of_lt' (Nat.lt_of_le_of_lt bounds.2 (by decide))
  simp only [isDigit, Bool.and_eq_true, decide_eq_true_eq, UInt8.le_iff_toNat_le, small]
  exact bounds

/-- `sscanf` reads back what `%lu` writes. -/
theorem scanLong_decimal (fits : number < 2 ^ 63) : scanLong (decimal number) = .number number := by
  obtain ⟨first, rest, same⟩ : ∃ first rest, decimal number = first :: rest := by
    have nonempty : decimal number ≠ [] := by
      simp [decimal, Nat.toDigits_ne_nil]
    exact List.exists_cons_of_ne_nil nonempty
  have digits : ∀ char ∈ decimal number, isDigit char = true := fun _ => isDigit_of_mem_decimal
  have isFirst : isDigit first = true := digits first (by rw [same]; exact List.mem_cons_self ..)
  have apart : ∀ char, isDigit char = true → isSpace char = false ∧ char ≠ 45 ∧ char ≠ 43 :=
    forall_byte (by decide +kernel)
  obtain ⟨notSpace, notMinus, notPlus⟩ := apart first isFirst
  have all : (decimal number).takeWhile isDigit = decimal number :=
    List.takeWhile_eq_self_iff.mpr digits
  unfold scanLong
  rw [same, List.dropWhile_cons_of_neg (by simp [notSpace])]
  dsimp only
  rw [if_neg notMinus, if_neg notPlus, ← same]
  unfold scanDigits
  rw [all, same]
  dsimp only
  rw [← same, digitsValue_decimal, one_mul, clampLong]
  congr 1
  omega
namespace Render

variable {μ κ : Type} {stage : Stage μ κ} {view : View μ} {machine : Machine μ κ}
  {owned : Nat → Prop} {platform : Platform} {value : Value μ}

section Values

theorem mapFind_entry (inert : value.Inert owned) (key : Str) :
    (mapFind platform value key : Exec μ κ _) = pure (entry platform value key) := by
  cases value with
  | user => exact inert.elim
  | _ => rfl

theorem arrayFind_element (inert : value.Inert owned) (index : Int) :
    (arrayFind value index : Exec μ κ _) = pure (element value index) := by
  cases value with
  | user => exact inert.elim
  | _ => rfl

theorem entry_of_not_map (notMap : value.type ≠ .map) : entry platform value key = none := by
  cases value with
  | map => exact absurd rfl notMap
  | _ => rfl

theorem findIndex_indexed (inert : value.Inert owned) (index : Int) (part : Str) :
    (findIndex index part value : Exec μ κ _) = pure (indexed index part value) := by
  unfold findIndex indexed
  cases scanLong part with
  | eof =>
    simp only [arrayFind_element inert, pure_bind]
  | number number => simp only [arrayFind_element inert, pure_bind]
  | mismatch => rfl

theorem followParts_follow (inert : value.Inert owned) (parts : List Str) :
    (followParts platform value parts : Exec μ κ _) = pure (follow platform value parts) := by
  induction parts generalizing value with
  | nil => rfl
  | cons part rest ih =>
    rw [followParts, follow, mapFind_entry inert, pure_bind]
    cases found : entry platform value part with
    | none => rfl
    | some child => exact ih (entry_all inert found)

theorem walkContext_walk (env : Env μ κ) (inert : value.Inert owned) (isStrict assumeObjects : Bool)
    (index : Int) (parts : List Str) :
    walkContext env isStrict assumeObjects index parts value =
      pure (walk env.platform isStrict assumeObjects index parts value) := by
  induction parts generalizing value index with
  | nil => rfl
  | cons part rest ih =>
    rw [walkContext, walk]
    split
    · rw [mapFind_entry inert, pure_bind]
      cases found : entry env.platform value part with
      | none => rfl
      | some child => exact ih (entry_all inert found) index
    · split
      · rw [findIndex_indexed inert, pure_bind]
        rcases found : indexed index part value with ⟨next, child⟩
        cases child with
        | none => rfl
        | some child => exact ih (indexed_all inert (congrArg Prod.snd found)) next
      · rfl

theorem laterData_dataRest (env : Env μ κ) (inert : value.Inert owned) (isStrict : Bool)
    (parts : List Str) :
    laterData env isStrict parts value = pure (dataRest env.platform isStrict parts value) := by
  induction parts generalizing value with
  | nil => rfl
  | cons part rest ih =>
    rw [laterData, dataRest]
    by_cases isMap : value.type = .map
    · rw [if_pos isMap, mapFind_entry inert, pure_bind]
      cases found : entry env.platform value part with
      | none =>
        dsimp only
        split
        · rfl
        · exact ih inert
      | some child => exact ih (entry_all inert found)
    · rw [if_neg isMap, pure_bind, entry_of_not_map isMap]
      dsimp only
      split
      · rfl
      · exact ih inert

end Values

section Data

variable {data : Value μ} {entries : StrMap (Value μ)}

/-- What is found in the data. -/
theorem DataIs.find (same : DataIs owned data entries) (key : Str) :
    (mapFind platform data key : Exec μ κ _) = pure (StrMap.find platform.hash entries key) := by
  cases same with
  | map outside => rfl
  | other notMap =>
    cases data with
    | map => exact absurd rfl notMap
    | user addr json =>
      cases json with
      | object => exact absurd rfl notMap
      | _ => rfl
    | _ => rfl

theorem outerData_nil (depth : Nat) : outerData platform depth ([] : StrMap (Value μ)) = [] := by
  induction depth with
  | zero => rfl
  | succ depth ih => exact ih

/-- The parents are found as far as there are any. -/
theorem parentData_outer (same : DataIs owned data entries)
    (inert : ∀ entry ∈ entries, entry.2.Inert owned') (depth : Nat) :
    ∃ outer, (parentData platform depth data : Exec μ κ _) = pure outer ∧
      DataIs (fun _ => False) outer (outerData platform depth entries) := by
  induction depth generalizing data entries owned with
  | zero =>
    refine ⟨data, rfl, ?_⟩
    cases same with
    | map outside => exact .map id
    | other notMap => exact .other notMap
  | succ depth ih =>
    rw [parentData, same.find, pure_bind, outerData]
    cases found : StrMap.find platform.hash entries (bytes "_parent") with
    | none => exact ih same inert
    | some parent =>
      obtain ⟨key, present, -⟩ := StrMap.find_some found
      have inside : parent.Inert owned' := inert _ present
      cases parent with
      | map addr members =>
        exact ih (@DataIs.map _ (fun _ => False) _ _ id) (Value.allEntries_iff.mp inside.2)
      | user => exact inside.elim
      | boolean bval =>
        rw [← outerData_nil depth]
        exact ih (@DataIs.other _ (fun _ => False) _ (by cases bval <;> rintro ⟨⟩)) (by simp)
      | _ =>
        rw [← outerData_nil depth]
        exact ih (@DataIs.other _ (fun _ => False) _ (by rintro ⟨⟩)) (by simp)

/-- The first segment of a data path, in the data so many parents out. -/
theorem firstData_dataStart (stands : Stands stage view machine)
    (nonempty : view.scope.contexts ≠ []) (same : DataIs owned data entries) (first : Str) :
    Does (firstData stage.env data first) (dataStart stage.mode view.scope entries first)
      (fun value found after => found = value ∧ after = machine) machine := by
  unfold firstData dataStart
  rw [same.find, pure_bind, stage.platform]
  cases StrMap.find stage.mode.platform.hash entries first with
  | some found => exact ⟨rfl, rfl⟩
  | none =>
    dsimp only
    split
    · refine Proc.does_step (topContext_does stands nonempty) ?_
      rintro top after ⟨rfl, rfl⟩
      exact ⟨rfl, rfl⟩
    · split
      · obtain ⟨stackSet, present, stacked⟩ := stands.stackSet
        refine Proc.does_ran (stackOf_ran _ present) ?_
        rw [show StackField.partialBlockStack.get stackSet = ⟨[], 0⟩ from stacked.partialBlocks]
        rfl
      · exact ⟨rfl, rfl⟩

end Data

section Opcodes

/-- The cell that `get_context` fills -/
def Selects (machine : Machine μ κ) (value : Value μ) : Prop :=
  ∃ addr, machine.vm.lastContext = some ⟨addr, value⟩

theorem getContext_does (stands : Stands stage view machine) {opcode : Opcode} (depth : Nat)
    (op1 : opcode.op1 = .long depth) :
    Does (acceptGetContext opcode) (.ok ()) (fun _ _ after => Stands stage view after ∧
      Selects after (view.scope.context depth)) machine := by
  obtain ⟨stackSet, present, stacked⟩ := stands.stackSet
  obtain ⟨cell, there⟩ := Option.isSome_iff_exists.mp stands.lastContext
  unfold acceptGetContext
  rw [op1]
  simp only [Operand.longval?, nonnull_some, pure_bind]
  refine Proc.does_ran (stackOf_ran _ present) ?_
  rw [if_neg (by omega), Int.toNat_natCast]
  unfold setLastContext
  refine Proc.does_ran (readVm_ran _ _) ?_
  rw [there, nonnull_some, pure_bind]
  refine ⟨stands.withLastContext _, cell.addr, ?_⟩
  rw [Scope.context, ← stacked.contexts]
  rfl

theorem pushContext_does (stands : Stands stage view machine) (selects : Selects machine value)
    (room : view.operands.length < Stack.capacity) :
    Does acceptPushContext (.ok ()) (fun _ _ after =>
      Stands stage { view with operands := value :: view.operands } after) machine := by
  obtain ⟨addr, cell⟩ := selects
  refine Proc.does_ran (readVm_ran _ _) ?_
  rw [cell]
  exact push_does stands value room

theorem search_find (env : Env μ κ) (key : Str) {contexts : List (Value μ)}
    (inert : ∀ value ∈ contexts, value.Inert owned) :
    depthedLookup.search env key contexts =
      pure (contexts.find? fun value => (entry env.platform value key).isSome) := by
  induction contexts with
  | nil => rfl
  | cons value rest ih =>
    obtain ⟨here, later⟩ := List.forall_mem_cons.mp inert
    rw [depthedLookup.search, List.find?_cons]
    by_cases isMap : value.type = .map
    · rw [if_pos isMap, mapFind_entry here, pure_bind]
      cases entry env.platform value key with
      | none => exact ih later
      | some found => rfl
    · rw [if_neg isMap, entry_of_not_map isMap]
      exact ih later

/-- The root of a context path is pushed and popped again. -/
theorem pushRoot_does (stands : Stands stage view machine)
    (inert : view.scope.Inert stage.owned) (path : PathNode)
    (selects : Selects machine (view.scope.context path.depth)) (first : Str)
    (room : view.operands.length < Stack.capacity) :
    Does (pushRoot stage.env (!path.scopedId && stage.mode.flags.has Flag.compat) first) (.ok ())
      (fun _ _ after => Stands stage { view with
        operands := pathRoot stage.mode view.scope path first :: view.operands } after)
      machine := by
  unfold pushRoot pathRoot
  split
  · obtain ⟨stackSet, present, stacked⟩ := stands.stackSet
    refine Proc.does_ran (stackOf_ran _ present) ?_
    have contexts : (StackField.contextStack.get stackSet).v = view.scope.contexts :=
      stacked.contexts
    rw [contexts, search_find stage.env first inert.contexts, pure_bind, stage.platform]
    exact push_does stands _ room
  · exact pushContext_does stands selects room

theorem lookupOnContext_does (stands : Stands stage view machine)
    (inert : view.scope.Inert stage.owned) {path : PathNode} {opcode : Opcode} {first : Str}
    {rest : List Str} (parts : path.parts = first :: rest)
    (op1 : opcode.op1 = .array path.parts)
    (op3 : opcode.op3 = if path.strict then .boolean true else .null false)
    (op4 : opcode.op4 = .boolean path.scopedId) (loc : opcode.loc = path.loc)
    (selects : Selects machine (view.scope.context path.depth))
    (room : view.operands.length < Stack.capacity) :
    Does (acceptLookupOnContext stage.env opcode) (contextValue stage.mode view.scope path first)
      (fun value _ after => Stands stage { view with operands := value :: view.operands } after)
      machine := by
  have terminal : opcode.op3.boolval? = some path.strict := by
    rw [op3]
    cases path.strict <;> rfl
  have start : path.parts.head? = some first := by rw [parts]; rfl
  unfold acceptLookupOnContext contextValue
  rw [terminal, op1, op4, loc]
  simp only [Operand.array?, Operand.boolval?, nonnull_some, pure_bind, start]
  refine Proc.does_ran (readVm_ran _ _) ?_
  rw [stands.flags]
  refine Proc.does_step (pushRoot_does stands inert path selects first room) ?_
  intro _ pushed stands
  refine Proc.does_step (popAssert_does stands rfl) ?_
  rintro root popped ⟨rfl, stands⟩
  rw [walkContext_walk stage.env (pathRoot_all stage.mode inert.toAll path first), pure_bind,
    stage.platform]
  cases walk stage.mode.platform (stage.mode.flags.has Flag.strict ||
      stage.mode.flags.has Flag.assumeObjects) (stage.mode.flags.has Flag.assumeObjects) (-1)
      path.parts (pathRoot stage.mode view.scope path first) with
  | found value => exact pushes_does stands value room
  | missing part =>
    dsimp only
    split
    · exact raise_does stands _
    · exact pushes_does stands _ room
  | err part => exact raise_does stands _

theorem lookupData_does (stands : Stands stage view machine)
    (inert : view.scope.Inert stage.owned) (nonempty : view.scope.contexts ≠ []) {path : PathNode}
    {opcode : Opcode} {first : Str} {rest : List Str} (parts : path.parts = first :: rest)
    (op1 : opcode.op1 = .long path.depth) (op2 : opcode.op2 = .array path.parts)
    (op3 : opcode.op3 = if path.strict then .boolean true else .null false)
    (loc : opcode.loc = path.loc) (room : view.operands.length < Stack.capacity) :
    Does (acceptLookupData stage.env opcode) (dataValue stage.mode view.scope path first rest)
      (fun value _ after => Stands stage { view with operands := value :: view.operands } after)
      machine := by
  have terminal : opcode.op3.boolval? = some path.strict := by
    rw [op3]
    cases path.strict <;> rfl
  obtain ⟨outer, ran, same⟩ := @parentData_outer _ κ _ stage.env.platform _ _ _ stands.data
    inert.data path.depth
  unfold acceptLookupData dataValue
  rw [terminal, op1, op2, loc, parts]
  simp only [Operand.array?, Operand.longval?, nonnull_some, pure_bind, List.head?_cons,
    List.tail_cons, Int.toNat_natCast]
  refine Proc.does_ran (readVm_ran _ _) ?_
  simp only [id_eq, stands.flags, ran, pure_bind, ← stage.platform]
  refine Proc.does_bind (firstData_dataStart stands nonempty same first) ?_
  rintro value found after start ⟨rfl, rfl⟩
  cases found with
  | none =>
    dsimp only
    split
    · exact raise_does stands _
    · exact pushes_does stands _ room
  | some found =>
    have inside : found.Inert stage.owned :=
      dataStart_all inert.toAll (outerData_all inert.data path.depth) start
    dsimp only
    rw [laterData_dataRest stage.env inside, pure_bind]
    cases dataRest stage.env.platform ((stage.mode.flags.has Flag.strict ||
        stage.mode.flags.has Flag.assumeObjects) || (stage.mode.flags.has Flag.strict && path.strict))
        rest found with
    | none => exact raise_does stands _
    | some value =>
      dsimp only
      split
      · exact raise_does stands _
      · exact pushes_does stands value room

theorem scanBlockParam_decimal (fits : number < 2 ^ 63) : scanBlockParam (decimal number) = number := by
  rw [scanBlockParam, scanLong_decimal fits]

/-- The entry at a depth, in both stacks. -/
theorem entries_at {stored : List (Value μ)} {items : List (List (Value μ))}
    (same : List.Forall₂ (fun value items => ∃ addr, value = Value.array addr items) stored items)
    (depth : Nat) : (stored[depth]? = none ∧ items[depth]? = none) ∨
      ∃ addr inside, stored[depth]? = some (.array addr inside) ∧ items[depth]? = some inside := by
  induction same generalizing depth with
  | nil => exact .inl ⟨rfl, rfl⟩
  | cons here later ih =>
    cases depth with
    | zero =>
      obtain ⟨addr, rfl⟩ := here
      exact .inr ⟨addr, _, rfl, rfl⟩
    | succ depth => exact ih depth

theorem lookupBlockParam_does (stands : Stands stage view machine)
    (inert : view.scope.Inert stage.owned) {opcode : Opcode} {depth number : Nat}
    {parts : List Str} (op1 : opcode.op1 = Compiler.blockParamOperand depth number)
    (op2 : opcode.op2 = .array parts) (depthFits : depth < 2 ^ 63) (numberFits : number < 2 ^ 63)
    (room : view.operands.length < Stack.capacity) :
    Does (acceptLookupBlockParam stage.env opcode)
      (pure (blockParamValue stage.mode view.scope depth number parts.tail))
      (fun value _ after => Stands stage { view with operands := value :: view.operands } after)
      machine := by
  obtain ⟨stackSet, present, stacked⟩ := stands.stackSet
  unfold acceptLookupBlockParam blockParamValue
  rw [op1, op2]
  simp only [Operand.array?, nonnull_some, pure_bind, Compiler.blockParamOperand]
  refine Proc.does_ran (stackOf_ran _ present) ?_
  rw [scanBlockParam_decimal depthFits, scanBlockParam_decimal numberFits]
  have found : blockParamEntry (StackField.blockParamStack.get stackSet) depth =
      stackSet.blockParamStack.v[depth]? := by
    unfold blockParamEntry
    rw [if_neg (by omega), Int.toNat_natCast]
    rfl
  rw [found]
  rcases entries_at stacked.blockParams depth with ⟨none, nothing⟩ | ⟨addr, items, there, inside⟩
  · rw [none, nothing]
    exact pushes_does stands .null room
  · have known := inert.blockParams items (List.mem_of_getElem? inside)
    have element : (arrayFind (.array addr items) (number : Int) : Exec μ κ _) =
        pure items[number]? := by
      rw [arrayFind, if_neg (by omega), Int.toNat_natCast]
    rw [there, inside]
    simp only [Exec.blockParamValue, Value.type, Value.realType, if_true, element, pure_bind,
      Option.bind_some]
    cases member : items[number]? with
    | none => exact pushes_does stands .null room
    | some value =>
      dsimp only
      rw [followParts_follow (known value (List.mem_of_getElem? member)), pure_bind, stage.platform]
      exact pushes_does stands _ room

end Opcodes

section Meanings

variable {mode : Mode} {names : List BlockParamPair} {scope : Scope μ} {path : PathNode}

end Meanings

end Render

end HandlebarsC
