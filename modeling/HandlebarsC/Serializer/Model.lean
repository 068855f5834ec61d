import HandlebarsC.Core.Program

/-!
`handlebars_opcode_serializer.c`: a program tree is written into one buffer,
first measured and then filled. Sizes are those of an LP64 platform.
-/

namespace HandlebarsC

/-- A `handlebars_string` that lives inside a module, as those who read it see it. What
`HBS_STR_SIZE` copies behind the NUL is in the module's image. -/
structure ModuleString where
  addr : Nat
  val : Str
  deriving DecidableEq, Repr

/-- A `handlebars_operand` whose pointers lead into a module. -/
inductive ModuleOperand where
  | null (boolval : Bool)
  | boolean (boolval : Bool)
  | long (longval : Int)
  | string (string : ModuleString)
  | array (addr : Nat) (array : List ModuleString)
  deriving DecidableEq, Repr

namespace ModuleOperand

/-- The first byte of the operand's union, read as a `bool`. -/
def boolval : ModuleOperand → Bool
  | .null flag => flag
  | .boolean flag => flag
  | .long longval => longval % 256 != 0
  | .string stored => stored.addr % 256 != 0
  | .array _ stored => stored.length % 256 != 0

/-- `operand.data.boolval = 1`, which destroys a pointer or a count. -/
def setBoolval : ModuleOperand → Option ModuleOperand
  | .null _ => some (.null true)
  | .boolean _ => some (.boolean true)
  | .long longval => some (.long (longval - longval % 256 + 1))
  | .string _ => none
  | .array _ _ => none

/-- What the operand says, its addresses left out. -/
def erase : ModuleOperand → Operand
  | .null flag => .null flag
  | .boolean flag => .boolean flag
  | .long longval => .long longval
  | .string stored => .string stored.val
  | .array _ stored => .array (stored.map (·.val))

end ModuleOperand

abbrev ModuleOpcode := OpcodeOf ModuleOperand

def ModuleOpcode.erase (opcode : ModuleOpcode) : Opcode :=
  opcode.map ModuleOperand.erase

/-- `struct handlebars_module_table_entry` -/
structure TableEntry where
  guid : Nat
  opcodeCount : Nat
  opcodeOffset : Nat
  deriving DecidableEq, Repr

/-- `struct handlebars_module` -/
structure Module where
  hash : UInt64
  version : Nat
  addr : Nat
  size : Nat
  ts : Int
  flags : Flags
  programCount : Nat
  programsAddr : Nat
  programs : List TableEntry
  opcodeCount : Nat
  opcodesAddr : Nat
  opcodes : List ModuleOpcode
  dataOffset : Nat
  deriving DecidableEq, Repr

/-- The opcodes an entry's slice covers. -/
def Module.slice (module : Module) (entry : TableEntry) : List ModuleOpcode :=
  (module.opcodes.drop entry.opcodeOffset).take entry.opcodeCount

namespace Serializer

def sizeofModule : Nat := 96
def sizeofTableEntry : Nat := 24
def sizeofOpcode : Nat := 120
def sizeofOperandString : Nat := 8
def sizeofString : Nat := 24

/-- `handlebars_align_size(size, sizeof(void *))` -/
def alignSize (size : Nat) : Nat :=
  let rem := size % 8
  if rem = 0 then size else size + 8 - rem

/-- `HBS_STR_SIZE` -/
def strSize (string : Str) : Nat :=
  sizeofString + string.length + 1

/-- Aligned room for strings stored one after another. -/
def stringsSize (strings : List Str) : Nat :=
  (strings.map (fun string => alignSize (strSize string))).sum

def calculateSizeOperand : Operand → Nat
  | .string string => alignSize (strSize string)
  | .array array => alignSize (sizeofOperandString * array.length) + stringsSize array
  | _ => 0

def calculateSizeOpcode (module : Module) (opcode : Opcode) : Nat × Module :=
  (sizeofOpcode + calculateSizeOperand opcode.op1 + calculateSizeOperand opcode.op2 +
      calculateSizeOperand opcode.op3 + calculateSizeOperand opcode.op4,
    { module with opcodeCount := module.opcodeCount + 1 })

def calculateSizeOpcodes (module : Module) (size : Nat) : List Opcode → Nat × Module
  | [] => (size, module)
  | opcode :: rest =>
    let (opcodeSize, module) := calculateSizeOpcode module opcode
    calculateSizeOpcodes module (size + opcodeSize) rest

/-- Counts programs and opcodes in the module while it adds up their sizes. -/
def calculateSizeProgram (module : Module) : Program → Nat × Module
  | .mk _ _ _ _ opcodes children _ =>
    let module := { module with programCount := module.programCount + 1 }
    let (size, module) := go module sizeofTableEntry children
    let (size, module) := calculateSizeOpcodes module size opcodes
    let (returnSize, module) := calculateSizeOpcode module (opcodeCtor .ret)
    (size + returnSize, module)
where
  go (module : Module) (size : Nat) : List Program → Nat × Module
    | [] => (size, module)
    | child :: rest =>
      let (childSize, module) := calculateSizeProgram module child
      go module (size + childSize) rest

/-- `append`: the address of the room taken. -/
def append (module : Module) (size : Nat) : Nat × Module :=
  (module.addr + sizeofModule + module.dataOffset,
    { module with dataOffset := module.dataOffset + alignSize size })

def appendString (module : Module) (string : Str) : ModuleString × Module :=
  let (addr, module) := append module (strSize string)
  (⟨addr, string⟩, module)

def appendStrings (module : Module) : List Str → List ModuleString × Module
  | [] => ([], module)
  | string :: rest =>
    let (stored, module) := appendString module string
    let (others, module) := appendStrings module rest
    (stored :: others, module)

def serializeOperand (module : Module) : Operand → ModuleOperand × Module
  | .null boolval => (.null boolval, module)
  | .boolean boolval => (.boolean boolval, module)
  | .long longval => (.long longval, module)
  | .string string =>
    let (stored, module) := appendString module string
    (.string stored, module)
  | .array array =>
    let (addr, module) := append module (sizeofOperandString * array.length)
    let (stored, module) := appendStrings module array
    (.array addr stored, module)

/-- `table[index]->guid`; the table holds positions in the module's program table.
Reading outside the table is undefined. -/
def tableGuid (module : Module) (table : List Nat) (index : Int) : Option Nat :=
  if index < 0 then none
  else (table[index.toNat]?).bind fun position => (module.programs[position]?).map (·.guid)

/-- The `push_program` patch of `serialize_opcode`. -/
def patchPushProgram (module : Module) (table : List Nat) (opcode : ModuleOpcode) :
    Option ModuleOpcode :=
  match opcode.type, opcode.op1 with
  | .pushProgram, .long longval =>
    if opcode.op4.boolval then some opcode
    else (tableGuid module table longval).bind fun guid =>
      opcode.op4.setBoolval.map fun op4 => { opcode with op1 := .long guid, op4 := op4 }
  | _, _ => some opcode

/-- Fills the next place of `module->opcodes`. -/
def pushOpcode (module : Module) (written : ModuleOpcode) : Module :=
  { module with
    opcodes := module.opcodes ++ [written]
    opcodeCount := module.opcodeCount + 1 }

def serializeOpcode (module : Module) (opcode : Opcode) (table : List Nat) : Option Module :=
  let (op1, module) := serializeOperand module opcode.op1
  let (op2, module) := serializeOperand module opcode.op2
  let (op3, module) := serializeOperand module opcode.op3
  let (op4, module) := serializeOperand module opcode.op4
  (patchPushProgram module table ⟨opcode.type, op1, op2, op3, op4, opcode.loc⟩).map
    (pushOpcode module)

def serializeOpcodes (module : Module) (table : List Nat) : List Opcode → Option Module
  | [] => some module
  | opcode :: rest =>
    (serializeOpcode module opcode table).bind fun module => serializeOpcodes module table rest

/-- Takes the next table entry; the result is its position. -/
def serializeProgramShallow (module : Module) : Nat × Module :=
  let guid := module.programCount
  (guid,
    { module with
      programs := module.programs ++ [⟨guid, 0, 0⟩]
      programCount := module.programCount + 1 })

def serializeShallow (module : Module) : Nat → List Nat × Module
  | 0 => ([], module)
  | count + 1 =>
    let (position, module) := serializeProgramShallow module
    let (positions, module) := serializeShallow module count
    (position :: positions, module)

/-- Writes to `module->programs[position]`. -/
def setEntry (module : Module) (position : Nat) (update : TableEntry → TableEntry) : Module :=
  { module with programs := module.programs.modify position update }

/-- The part of `serialize_program2` that writes the program's own opcodes. -/
def serializeOwn (module : Module) (entry : Nat) (opcodes : List Opcode) (children : List Nat) :
    Option Module :=
  let module := setEntry module entry fun found =>
    { found with opcodeCount := opcodes.length, opcodeOffset := module.opcodeCount }
  (serializeOpcodes module children opcodes).bind fun module =>
  (serializeOpcode module (opcodeCtor .ret) children).map fun module =>
    setEntry module entry fun found => { found with opcodeCount := found.opcodeCount + 1 }

def serializeProgram2 (module : Module) (entry : Nat) : Program → Option Module
  | .mk _ _ _ _ opcodes children _ =>
    let (positions, module) := serializeShallow module children.length
    (serializeOwn module entry opcodes positions).bind fun module => go module positions children
where
  go (module : Module) (positions : List Nat) : List Program → Option Module
    | [] => some module
    | child :: rest =>
      match positions with
      | [] => none
      | position :: positions =>
        (serializeProgram2 module position child).bind fun module => go module positions rest

def serializeProgram (module : Module) (program : Program) : Option Module :=
  let (entry, module) := serializeProgramShallow module
  serializeProgram2 module entry program

/-- The part of `handlebars_program_serialize` before the copying: the buffer is
measured, reallocated to `addr` and its counters are reset. -/
def allocate (now : Int) (addr : Nat) (program : Program) : Module :=
  let module : Module :=
    { hash := 0, version := handlebarsVersion, addr := 0, size := 0, ts := now,
      flags := program.flags, programCount := 0, programsAddr := 0, programs := [],
      opcodeCount := 0, opcodesAddr := 0, opcodes := [], dataOffset := 0 }
  let (size, module) := calculateSizeProgram module program
  let offset := sizeofTableEntry * module.programCount
  { module with
    size := sizeofModule + size
    addr := addr
    programsAddr := addr + sizeofModule
    opcodesAddr := addr + sizeofModule + offset
    dataOffset := offset + sizeofOpcode * module.opcodeCount
    programCount := 0
    opcodeCount := 0 }

/-- `handlebars_program_serialize` -/
def programSerialize (now : Int) (addr : Nat) (program : Program) : Option Module :=
  serializeProgram (allocate now addr program) program

end Serializer

end HandlebarsC
