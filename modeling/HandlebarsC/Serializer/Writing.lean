import HandlebarsC.Serializer.Numbering

/-!
What each writing step of the serializer leaves behind, from a single operand up
to `serialize_program2`.
-/

namespace HandlebarsC

/-- What the serializer makes of an opcode: a `push_program` operand, still
unmarked, becomes the guid of the child it names. -/
def OpcodeOf.globalize (table : List Nat) (opcode : Opcode) : Opcode :=
  match opcode.type, opcode.op1, opcode.op4 with
  | .pushProgram, .long index, .null false =>
    { opcode with op1 := .long (table.getD index.toNat 0), op4 := .null true }
  | _, _, _ => opcode

/-- A `push_program` as the compiler emits it: its operand is absent or an index
below `count`, and its fourth operand is still the constructor's. -/
def OpcodeOf.PushProgramBelow (count : Nat) (opcode : Opcode) : Prop :=
  opcode.type = .pushProgram → opcode.op4 = .null false ∧
    ((∃ flag, opcode.op1 = .null flag) ∨ ∃ index : Nat, index < count ∧ opcode.op1 = .long index)

namespace Serializer

def ModuleString.Within (low high : Nat) (stored : ModuleString) : Prop :=
  low ≤ stored.addr ∧ stored.addr + strSize stored.val ≤ high

/-- Everything the operand points to lies between two addresses. -/
def OperandWithin (low high : Nat) : ModuleOperand → Prop
  | .string stored => ModuleString.Within low high stored
  | .array addr stored =>
    low ≤ addr ∧ addr + sizeofOperandString * stored.length ≤ high ∧
      ∀ item ∈ stored, ModuleString.Within low high item
  | _ => True

def OpcodeWithin (low high : Nat) (opcode : ModuleOpcode) : Prop :=
  ∀ operand ∈ opcode.operands, OperandWithin low high operand

theorem le_alignSize (size : Nat) : size ≤ alignSize size := by
  simp only [alignSize]
  split <;> omega

theorem ModuleString.Within.widen (within : ModuleString.Within low high stored)
    (below : lower ≤ low) (above : high ≤ higher) : ModuleString.Within lower higher stored :=
  ⟨Nat.le_trans below within.1, Nat.le_trans within.2 above⟩

theorem OperandWithin.widen (within : OperandWithin low high operand)
    (below : lower ≤ low) (above : high ≤ higher) : OperandWithin lower higher operand := by
  cases operand with
  | string stored => exact ModuleString.Within.widen within below above
  | array addr stored =>
    obtain ⟨start, stop, items⟩ := within
    exact ⟨Nat.le_trans below start, Nat.le_trans stop above,
      fun item member => (items item member).widen below above⟩
  | _ => trivial

theorem OpcodeWithin.widen (within : OpcodeWithin low high opcode)
    (below : lower ≤ low) (above : high ≤ higher) : OpcodeWithin lower higher opcode :=
  fun operand member => (within operand member).widen below above

theorem OpcodeWithin.of_operands (within1 : OperandWithin low high op1)
    (within2 : OperandWithin low high op2) (within3 : OperandWithin low high op3)
    (within4 : OperandWithin low high op4) :
    OpcodeWithin low high ⟨type, op1, op2, op3, op4, loc⟩ := by
  intro operand member
  simp only [OpcodeOf.operands, List.mem_cons, List.not_mem_nil, or_false] at member
  rcases member with rfl | rfl | rfl | rfl <;> assumption

/-- First free address of the data segment. -/
def dataEnd (module : Module) : Nat :=
  module.addr + sizeofModule + module.dataOffset

/-- The module with `size` more bytes of its data segment in use. -/
def grow (module : Module) (size : Nat) : Module :=
  { module with dataOffset := module.dataOffset + size }

@[simp] theorem grow_zero (module : Module) : grow module 0 = module := rfl

@[simp] theorem grow_grow (module : Module) (first second : Nat) :
    grow (grow module first) second = grow module (first + second) := by
  simp [grow, Nat.add_assoc]

@[simp] theorem dataEnd_grow (module : Module) (size : Nat) :
    dataEnd (grow module size) = dataEnd module + size := by
  simp [dataEnd, grow, Nat.add_assoc]

theorem appendString_eq (module : Module) (string : Str) :
    appendString module string =
      (⟨dataEnd module, string⟩, grow module (alignSize (strSize string))) := rfl

theorem appendStrings_spec (module : Module) (strings : List Str) :
    (appendStrings module strings).2 = grow module (stringsSize strings) ∧
      (appendStrings module strings).1.map (·.val) = strings ∧
      ∀ item ∈ (appendStrings module strings).1,
        ModuleString.Within (dataEnd module) (dataEnd module + stringsSize strings) item := by
  induction strings generalizing module with
  | nil => simp [appendStrings, stringsSize]
  | cons string rest ih =>
    obtain ⟨after, same, within⟩ := ih (grow module (alignSize (strSize string)))
    have size : stringsSize (string :: rest) = alignSize (strSize string) + stringsSize rest := by
      simp [stringsSize]
    simp only [appendStrings, appendString_eq]
    refine ⟨by rw [after, grow_grow, size], by rw [List.map_cons, same], ?_⟩
    intro item member
    rcases List.mem_cons.mp member with rfl | later
    · exact ⟨Nat.le_refl _, by have := le_alignSize (strSize string); simp only; omega⟩
    · exact (within item later).widen (by simp) (by simp [size, Nat.add_assoc])

theorem serializeOperand_spec (module : Module) (operand : Operand) :
    (serializeOperand module operand).2 = grow module (calculateSizeOperand operand) ∧
      (serializeOperand module operand).1.erase = operand ∧
      OperandWithin (dataEnd module) (dataEnd module + calculateSizeOperand operand)
        (serializeOperand module operand).1 := by
  cases operand with
  | null flag => exact ⟨rfl, rfl, trivial⟩
  | boolean flag => exact ⟨rfl, rfl, trivial⟩
  | long longval => exact ⟨rfl, rfl, trivial⟩
  | string string =>
    refine ⟨rfl, rfl, Nat.le_refl _, ?_⟩
    have := le_alignSize (strSize string)
    simp only [calculateSizeOperand, dataEnd]
    omega
  | array strings =>
    obtain ⟨after, same, within⟩ := appendStrings_spec
      (grow module (alignSize (sizeofOperandString * strings.length))) strings
    have count : (appendStrings (grow module (alignSize (sizeofOperandString * strings.length)))
        strings).1.length = strings.length := by
      simpa using congrArg List.length same
    have room := le_alignSize (sizeofOperandString * strings.length)
    refine ⟨?_, ?_, Nat.le_refl _, ?_, ?_⟩
    · exact after.trans (grow_grow ..)
    · exact congrArg Operand.array same
    · change dataEnd module + sizeofOperandString * (appendStrings (grow module
        (alignSize (sizeofOperandString * strings.length))) strings).1.length ≤ _
      rw [count, calculateSizeOperand]
      omega
    · intro item member
      refine (within item member).widen (by simp) ?_
      simp [calculateSizeOperand, Nat.add_assoc]

/-- Bytes an opcode takes in the data segment. -/
def opcodeDataSize (opcode : Opcode) : Nat :=
  calculateSizeOperand opcode.op1 + calculateSizeOperand opcode.op2 +
    calculateSizeOperand opcode.op3 + calculateSizeOperand opcode.op4

/-- Each position of the table holds the entry with that very guid. -/
def TableNamed (module : Module) (table : List Nat) : Prop :=
  ∀ position ∈ table, ∃ entry, module.programs[position]? = some entry ∧ entry.guid = position

theorem tableGuid_named (named : TableNamed module table) (bound : index < table.length) :
    tableGuid module table (index : Nat) = some (table.getD index 0) := by
  obtain ⟨entry, present, guid⟩ := named table[index] (List.getElem_mem bound)
  have nonneg : ¬ ((index : Int) < 0) := by omega
  simp [tableGuid, nonneg, bound, present, guid]

theorem patchPushProgram_spec (named : TableNamed module table) (opcode : Opcode)
    (below : opcode.PushProgramBelow table.length) (written : ModuleOpcode)
    (same : written.erase = opcode) (within : OpcodeWithin low high written) :
    ∃ patched, patchPushProgram module table written = some patched ∧
      patched.erase = opcode.globalize table ∧ OpcodeWithin low high patched := by
  obtain ⟨type, op1, op2, op3, op4, loc⟩ := written
  subst same
  by_cases isPush : type = .pushProgram
  · subst isPush
    obtain ⟨unmarked, ⟨flag, absent⟩ | ⟨index, bound, present⟩⟩ := below rfl
    · cases op1 <;> simp [ModuleOpcode.erase, OpcodeOf.map, ModuleOperand.erase] at absent
      exact ⟨_, rfl, rfl, within⟩
    · cases op1 <;> simp [ModuleOpcode.erase, OpcodeOf.map, ModuleOperand.erase] at present
      cases op4 <;> simp [ModuleOpcode.erase, OpcodeOf.map, ModuleOperand.erase] at unmarked
      subst present unmarked
      refine ⟨⟨.pushProgram, .long (table.getD index 0), op2, op3, .null true, loc⟩, ?_, ?_, ?_⟩
      · simp [patchPushProgram, ModuleOperand.boolval, ModuleOperand.setBoolval,
          tableGuid_named named bound]
      · simp [ModuleOpcode.erase, OpcodeOf.map, ModuleOperand.erase, OpcodeOf.globalize]
      · exact .of_operands trivial (within _ (by simp [OpcodeOf.operands]))
          (within _ (by simp [OpcodeOf.operands])) trivial
  · refine ⟨_, ?_, ?_, within⟩
    · simp only [patchPushProgram]
      split
      · exact absurd rfl isPush
      · rfl
    · simp only [OpcodeOf.globalize]
      split
      · rename_i isPush' _ _
        exact absurd isPush' isPush
      · rfl

theorem serializeOpcode_spec (named : TableNamed module table) (opcode : Opcode)
    (below : opcode.PushProgramBelow table.length) :
    ∃ written, serializeOpcode module opcode table =
        some (pushOpcode (grow module (opcodeDataSize opcode)) written) ∧
      written.erase = opcode.globalize table ∧
      OpcodeWithin (dataEnd module) (dataEnd module + opcodeDataSize opcode) written := by
  obtain ⟨after1, same1, within1⟩ := serializeOperand_spec module opcode.op1
  obtain ⟨after2, same2, within2⟩ := serializeOperand_spec
    (grow module (calculateSizeOperand opcode.op1)) opcode.op2
  obtain ⟨after3, same3, within3⟩ := serializeOperand_spec
    (grow module (calculateSizeOperand opcode.op1 + calculateSizeOperand opcode.op2)) opcode.op3
  obtain ⟨after4, same4, within4⟩ := serializeOperand_spec
    (grow module (calculateSizeOperand opcode.op1 + calculateSizeOperand opcode.op2 +
      calculateSizeOperand opcode.op3)) opcode.op4
  simp only [grow_grow, dataEnd_grow] at after2 after3 after4 within2 within3 within4
  simp only [serializeOpcode, after1, after2, after3, after4]
  rw [← opcodeDataSize]
  have total : dataEnd module + opcodeDataSize opcode = dataEnd module +
      calculateSizeOperand opcode.op1 + calculateSizeOperand opcode.op2 +
        calculateSizeOperand opcode.op3 + calculateSizeOperand opcode.op4 := by
    rw [opcodeDataSize]
    omega
  have whole : OpcodeWithin (dataEnd module) (dataEnd module + opcodeDataSize opcode)
      ⟨opcode.type, (serializeOperand module opcode.op1).1,
        (serializeOperand (grow module (calculateSizeOperand opcode.op1)) opcode.op2).1,
        (serializeOperand (grow module (calculateSizeOperand opcode.op1 +
          calculateSizeOperand opcode.op2)) opcode.op3).1,
        (serializeOperand (grow module (calculateSizeOperand opcode.op1 +
          calculateSizeOperand opcode.op2 + calculateSizeOperand opcode.op3)) opcode.op4).1,
        opcode.loc⟩ :=
    .of_operands (within1.widen (by omega) (by omega)) (within2.widen (by omega) (by omega))
      (within3.widen (by omega) (by omega)) (within4.widen (by omega) (by omega))
  have tableAfter : TableNamed (grow module (opcodeDataSize opcode)) table := named
  obtain ⟨patched, success, same, within⟩ := patchPushProgram_spec tableAfter opcode below _
    (by simp only [ModuleOpcode.erase, OpcodeOf.map, same1, same2, same3, same4]) whole
  exact ⟨patched, by rw [success]; rfl, same, within⟩

def opcodesDataSize (opcodes : List Opcode) : Nat :=
  (opcodes.map opcodeDataSize).sum

/-- `pushOpcode` for several opcodes in a row. -/
def pushOpcodes (module : Module) (written : List ModuleOpcode) : Module :=
  { module with
    opcodes := module.opcodes ++ written
    opcodeCount := module.opcodeCount + written.length }

theorem serializeOpcodes_spec (named : TableNamed module table) (opcodes : List Opcode)
    (below : ∀ opcode ∈ opcodes, opcode.PushProgramBelow table.length) :
    ∃ written, serializeOpcodes module table opcodes =
        some (pushOpcodes (grow module (opcodesDataSize opcodes)) written) ∧
      written.map ModuleOpcode.erase = opcodes.map (OpcodeOf.globalize table) ∧
      ∀ opcode ∈ written,
        OpcodeWithin (dataEnd module) (dataEnd module + opcodesDataSize opcodes) opcode := by
  induction opcodes generalizing module with
  | nil => exact ⟨[], by simp [serializeOpcodes, pushOpcodes, opcodesDataSize], rfl, by simp⟩
  | cons opcode rest ih =>
    obtain ⟨first, success, same, within⟩ :=
      serializeOpcode_spec named opcode (below opcode (by simp))
    have namedAfter : TableNamed (pushOpcode (grow module (opcodeDataSize opcode)) first) table :=
      named
    obtain ⟨others, successRest, sameRest, withinRest⟩ :=
      ih namedAfter (fun later member => below later (by simp [member]))
    have size : opcodesDataSize (opcode :: rest) = opcodeDataSize opcode + opcodesDataSize rest := by
      simp [opcodesDataSize]
    refine ⟨first :: others, ?_, by simp [same, sameRest], ?_⟩
    · rw [serializeOpcodes, success, Option.bind_some, successRest]
      simp [pushOpcodes, pushOpcode, grow, size, Nat.add_assoc, Nat.add_comm 1]
    · intro found member
      rcases List.mem_cons.mp member with rfl | later
      · exact within.widen (Nat.le_refl _) (by omega)
      · refine (withinRest found later).widen ?_ ?_ <;>
          simp only [dataEnd, pushOpcode, grow, size] <;> omega

theorem serializeShallow_eq (module : Module) (count : Nat) :
    serializeShallow module count =
      (List.range' module.programCount count,
        { module with
          programs := module.programs ++
            (List.range' module.programCount count).map (fun guid => ⟨guid, 0, 0⟩)
          programCount := module.programCount + count }) := by
  induction count generalizing module with
  | zero => simp [serializeShallow]
  | succ count ih =>
    rw [serializeShallow, serializeProgramShallow]
    simp only [ih]
    simp [List.range'_succ, Nat.add_assoc, Nat.add_comm 1]

end Serializer

end HandlebarsC
