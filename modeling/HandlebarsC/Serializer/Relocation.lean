import HandlebarsC.Serializer.Image
import HandlebarsC.Serializer.Strings

/-!
The serializer writes the same module wherever its buffer lies: only the pointers differ,
by the distance. So a module can be stored without its address and loaded at another. What
lies behind the NUL of a string goes into the image with it.
-/

namespace HandlebarsC

def ModuleString.shift (distance : Nat) (stored : ModuleString) : ModuleString :=
  { stored with addr := stored.addr + distance }

def ModuleOperand.shift (distance : Nat) : ModuleOperand → ModuleOperand
  | .string stored => .string (stored.shift distance)
  | .array addr stored => .array (addr + distance) (stored.map (ModuleString.shift distance))
  | operand => operand

def ModuleOpcode.shift (distance : Nat) (opcode : ModuleOpcode) : ModuleOpcode :=
  opcode.map (ModuleOperand.shift distance)

/-- The module at another time and, by a distance, at another address. -/
def Module.shift (now : Int) (distance : Nat) (module : Module) : Module :=
  { module with
    ts := now
    addr := module.addr + distance
    programsAddr := module.programsAddr + distance
    opcodesAddr := module.opcodesAddr + distance
    opcodes := module.opcodes.map (ModuleOpcode.shift distance) }

namespace Serializer

variable {now : Int} {distance : Nat} {module : Module}

theorem append_shift (size : Nat) :
    append (module.shift now distance) size =
      ((append module size).1 + distance, (append module size).2.shift now distance) := by
  refine Prod.ext ?_ rfl
  change module.addr + distance + sizeofModule + module.dataOffset = _
  rw [append]
  omega

theorem appendString_shift (string : Str) :
    appendString (module.shift now distance) string =
      ((appendString module string).1.shift distance,
        (appendString module string).2.shift now distance) := by
  rw [appendString, append_shift]
  rfl

theorem appendStrings_shift (strings : List Str) :
    appendStrings (module.shift now distance) strings =
      ((appendStrings module strings).1.map (ModuleString.shift distance),
        (appendStrings module strings).2.shift now distance) := by
  induction strings generalizing module with
  | nil => rfl
  | cons string rest ih =>
    rw [appendStrings, appendString_shift]
    simp only [ih]
    rfl

theorem serializeOperand_shift (operand : Operand) :
    serializeOperand (module.shift now distance) operand =
      ((serializeOperand module operand).1.shift distance,
        (serializeOperand module operand).2.shift now distance) := by
  cases operand with
  | null | boolean | long => rfl
  | string string =>
    rw [serializeOperand, appendString_shift]
    rfl
  | array strings =>
    rw [serializeOperand, append_shift]
    simp only [appendStrings_shift]
    rfl

/-- A `push_program` whose marker is a null operand is patched alike everywhere. -/
theorem patchPushProgram_shift (table : List Nat) (opcode : ModuleOpcode)
    (unmarked : opcode.type = .pushProgram → opcode.op4 = .null false) :
    patchPushProgram (module.shift now distance) table (opcode.shift distance) =
      (patchPushProgram module table opcode).map (ModuleOpcode.shift distance) := by
  obtain ⟨type, op1, op2, op3, op4, loc⟩ := opcode
  by_cases isPush : type = .pushProgram
  · subst isPush
    have null : op4 = .null false := unmarked rfl
    subst null
    cases op1 with
    | long index =>
      have table : tableGuid (module.shift now distance) table index =
          tableGuid module table index := rfl
      simp only [patchPushProgram, ModuleOpcode.shift, OpcodeOf.map, ModuleOperand.shift,
        ModuleOperand.boolval, ModuleOperand.setBoolval, table, Bool.false_eq_true, if_false]
      cases tableGuid module _ index <;> rfl
    | null | boolean | string | array => rfl
  · have skip : ∀ (module : Module) (opcode : ModuleOpcode), opcode.type ≠ .pushProgram →
        patchPushProgram module table opcode = some opcode := by
      intro module opcode different
      unfold patchPushProgram
      split
      · rename_i same _
        exact absurd same different
      · rfl
    rw [skip _ _ isPush, skip _ _ isPush]
    rfl

theorem serializeOpcode_shift (opcode : Opcode) (table : List Nat)
    (below : opcode.PushProgramBelow count) :
    serializeOpcode (module.shift now distance) opcode table =
      (serializeOpcode module opcode table).map (Module.shift now distance) := by
  have unmarked : ∀ module : Module, opcode.type = .pushProgram →
      (serializeOperand module opcode.op4).1 = .null false := by
    intro module isPush
    rw [(below isPush).1]
    rfl
  rw [serializeOpcode, serializeOpcode]
  simp only [serializeOperand_shift]
  refine (congrArg (Option.map _) (patchPushProgram_shift table
    ⟨opcode.type, _, _, _, _, opcode.loc⟩ (unmarked _))).trans ?_
  rw [Option.map_map, Option.map_map]
  refine congrArg (Option.map · _) (funext fun written => ?_)
  simp only [Function.comp_apply, pushOpcode, Module.shift, List.map_append, List.map_cons,
    List.map_nil]

theorem serializeOpcodes_shift (table : List Nat) (opcodes : List Opcode)
    (below : ∀ opcode ∈ opcodes, opcode.PushProgramBelow count) :
    serializeOpcodes (module.shift now distance) table opcodes =
      (serializeOpcodes module table opcodes).map (Module.shift now distance) := by
  induction opcodes generalizing module with
  | nil => rfl
  | cons opcode rest ih =>
    rw [serializeOpcodes, serializeOpcodes,
      serializeOpcode_shift opcode table (below opcode List.mem_cons_self)]
    cases serializeOpcode module opcode table with
    | none => rfl
    | some written => exact ih fun later member => below later (List.mem_cons_of_mem _ member)

theorem serializeShallow_shift (count : Nat) :
    serializeShallow (module.shift now distance) count =
      ((serializeShallow module count).1, (serializeShallow module count).2.shift now distance) := by
  rw [serializeShallow_eq, serializeShallow_eq]
  rfl

theorem serializeOwn_shift (entry : Nat) (opcodes : List Opcode) (children : List Nat)
    (below : ∀ opcode ∈ opcodes, opcode.PushProgramBelow count) :
    serializeOwn (module.shift now distance) entry opcodes children =
      (serializeOwn module entry opcodes children).map (Module.shift now distance) := by
  rw [serializeOwn, serializeOwn]
  let started := setEntry module entry fun found => { found with
    opcodeCount := opcodes.length, opcodeOffset := module.opcodeCount }
  have walked : serializeOpcodes (started.shift now distance) children opcodes = _ :=
    serializeOpcodes_shift children opcodes below
  refine (congrArg (Option.bind · _) walked).trans ?_
  cases serializeOpcodes (setEntry module entry fun found => { found with
      opcodeCount := opcodes.length, opcodeOffset := module.opcodeCount }) children opcodes with
  | none => rfl
  | some written =>
    have last : (opcodeCtor .ret).PushProgramBelow 0 := by
      rintro ⟨⟩
    rw [Option.map_some, Option.bind_some, Option.bind_some,
      serializeOpcode_shift (opcodeCtor .ret) children last, Option.map_map,
      Option.map_map]
    rfl

theorem serializeProgram2_shift (program : Program) (entry : Nat)
    (bounded : program.PushProgramsBelow) :
    serializeProgram2 (module.shift now distance) entry program =
      (serializeProgram2 module entry program).map (Module.shift now distance) := by
  induction program using Program.treeInduction generalizing module entry with
  | node program ih =>
    obtain ⟨guid, flags, resultFlags, blockParams, opcodes, children, decorators⟩ := program
    have loop : ∀ (rest : List Program) (positions : List Nat) (module : Module),
        (∀ child ∈ rest, child ∈ children) →
        serializeProgram2.go (module.shift now distance) positions rest =
          (serializeProgram2.go module positions rest).map (Module.shift now distance) := by
      intro rest
      induction rest with
      | nil => intro positions module _; rfl
      | cons child rest induct =>
        intro positions module inside
        cases positions with
        | nil => rfl
        | cons position positions =>
          have member := inside child List.mem_cons_self
          obtain ⟨index, present⟩ := List.mem_iff_getElem?.mp member
          rw [serializeProgram2.go, serializeProgram2.go, ih child member position
            (bounded.child present)]
          cases serializeProgram2 module position child with
          | none => rfl
          | some written =>
            exact induct positions written fun later member =>
              inside later (List.mem_cons_of_mem _ member)
    rw [serializeProgram2, serializeProgram2, serializeShallow_shift]
    dsimp only
    rw [serializeOwn_shift entry opcodes _ (bounded [] _ rfl)]
    cases serializeOwn (serializeShallow module children.length).2 entry opcodes
        (serializeShallow module children.length).1 with
    | none => rfl
    | some written => exact loop children _ written fun _ member => member

/-- A module serialized at another time and address. -/
theorem programSerialize_shift (now : Int) (addr : Nat) (program : Program)
    (bounded : program.PushProgramsBelow) :
    programSerialize now addr program =
      (programSerialize 0 0 program).map (Module.shift now addr) := by
  have allocated : allocate now addr program = (allocate 0 0 program).shift now addr := by
    rw [allocate_eq, allocate_eq]
    simp only [Module.shift, Module.mk.injEq, List.map_nil, true_and, and_true]
    omega
  rw [programSerialize, programSerialize, allocated, serializeProgram, serializeProgram]
  let shallow := (serializeProgramShallow (allocate 0 0 program)).2
  change serializeProgram2 (shallow.shift now addr) _ _ = _
  exact serializeProgram2_shift program (allocate 0 0 program).programCount bounded

end Serializer

/-- The link that a pointer of a module at `base` makes. -/
def linkAt (base ptr : Nat) (target : α) : Link α := ⟨.ofNat ptr, .ofNat (ptr - base), target⟩

section Images

variable (base : Nat) (behind : Nat → UInt32)

/-- An operand whose first string is the `index`-th of its tree. The strings of a tree have
`behind` behind them. -/
def ModuleOperand.image (index : Nat) : ModuleOperand → ImageOperand
  | .null flag => .null flag
  | .boolean flag => .boolean flag
  | .long longval => .long longval
  | .string stored => .string (linkAt base stored.addr ⟨stored.val, behind index⟩)
  | .array addr stored =>
    .array (linkAt base addr (stored.mapIdx fun position item =>
      linkAt base item.addr ⟨item.val, behind (index + position)⟩))

/-- The operands in the order in which they were serialized. -/
def ModuleOpcode.image (index : Nat) (opcode : ModuleOpcode) : ImageOpcode :=
  let second := index + opcode.op1.erase.stringCount
  let third := second + opcode.op2.erase.stringCount
  let fourth := third + opcode.op3.erase.stringCount
  ⟨opcode.type, opcode.op1.image base behind index, opcode.op2.image base behind second,
    opcode.op3.image base behind third, opcode.op4.image base behind fourth, opcode.loc⟩

def opcodesImage (index : Nat) : List ModuleOpcode → List ImageOpcode
  | [] => []
  | opcode :: rest =>
    ModuleOpcode.image base behind index opcode ::
      opcodesImage (index + opcode.erase.stringCount) rest

end Images

/-- A module that lies where it was written, as it is in memory. -/
def Module.image (behind : Nat → UInt32) (module : Module) : Image where
  hash := module.hash
  version := module.version
  addr := .ofNat module.addr
  size := module.size
  ts := module.ts
  flags := module.flags
  programCount := module.programCount
  programs := linkAt module.addr module.programsAddr module.programs
  opcodeCount := module.opcodeCount
  opcodes := linkAt module.addr module.opcodesAddr
    (opcodesImage module.addr behind 0 module.opcodes)
  dataOffset := module.dataOffset

theorem linkAt_shift (distance ptr : Nat) (target : α) :
    linkAt distance (ptr + distance) target = (linkAt 0 ptr target).relink (.ofNat distance) := by
  rw [linkAt, linkAt, Link.relink, Nat.add_sub_cancel, Nat.sub_zero, Nat.add_comm,
    UInt64.ofNat_add]

@[simp] theorem ModuleOperand.erase_shift (distance : Nat) (operand : ModuleOperand) :
    (operand.shift distance).erase = operand.erase := by
  cases operand with
  | null | boolean | long | string => rfl
  | array addr stored => simp [shift, erase, ModuleString.shift, Function.comp_def]

section Images

variable {base : Nat} {behind other : Nat → UInt32}

theorem ModuleOperand.image_shift (distance index : Nat) (operand : ModuleOperand) :
    (operand.shift distance).image distance behind index =
      (operand.image 0 behind index).relink (.ofNat distance) := by
  cases operand with
  | null | boolean | long => rfl
  | string stored => exact congrArg ImageOperand.string (linkAt_shift distance _ _)
  | array addr stored =>
    refine congrArg ImageOperand.array ((linkAt_shift distance addr _).trans ?_)
    refine congrArg (Link.mk _ _) (List.ext_getElem? fun position => ?_)
    simp only [linkAt, List.getElem?_mapIdx, List.getElem?_map, Option.map_map]
    refine congrArg (Option.map · _) (funext fun item => ?_)
    exact linkAt_shift distance item.addr (StoredString.mk item.val _)

theorem opcodesImage_shift (distance index : Nat) (opcodes : List ModuleOpcode) :
    opcodesImage distance behind index (opcodes.map (ModuleOpcode.shift distance)) =
      (opcodesImage 0 behind index opcodes).map
        (OpcodeOf.map (ImageOperand.relink (.ofNat distance))) := by
  induction opcodes generalizing index with
  | nil => rfl
  | cons opcode rest ih =>
    simp only [opcodesImage, List.map_cons, ModuleOpcode.image, ModuleOpcode.shift,
      ModuleOpcode.erase, OpcodeOf.map, ModuleOperand.erase_shift, ModuleOperand.image_shift]
    exact congrArg (List.cons _) (ih _)

theorem ModuleOperand.erase_image (index : Nat) (operand : ModuleOperand) :
    (operand.image base behind index).erase = operand.erase := by
  cases operand with
  | null | boolean | long | string => rfl
  | array addr stored =>
    refine congrArg Operand.array (List.ext_getElem? fun position => ?_)
    simp [linkAt, Function.comp_def]

theorem opcodesImage_erase (index : Nat) (opcodes : List ModuleOpcode) :
    (opcodesImage base behind index opcodes).map (OpcodeOf.map ImageOperand.erase) =
      opcodes.map ModuleOpcode.erase := by
  induction opcodes generalizing index with
  | nil => rfl
  | cons opcode rest ih =>
    simp only [opcodesImage, List.map_cons, ModuleOpcode.image, ModuleOpcode.erase, OpcodeOf.map,
      ModuleOperand.erase_image]
    exact congrArg (List.cons _) (ih _)

/-- Every operand in the image of a module is the image of one of its operands. -/
theorem mem_opcodesImage (opcodes : List ModuleOpcode)
    (inCode : imaged ∈ opcodesImage base behind index opcodes)
    (inOpcode : operand ∈ imaged.operands) :
    ∃ opcode ∈ opcodes, ∃ original ∈ opcode.operands, ∃ place,
      operand = original.image base behind place := by
  induction opcodes generalizing index with
  | nil => cases inCode
  | cons opcode rest ih =>
    rcases List.mem_cons.mp inCode with rfl | later
    · refine ⟨opcode, List.mem_cons_self, ?_⟩
      simp only [ModuleOpcode.image, OpcodeOf.operands, List.mem_cons, List.not_mem_nil,
        or_false] at inOpcode
      rcases inOpcode with rfl | rfl | rfl | rfl
      · exact ⟨opcode.op1, by simp [OpcodeOf.operands], _, rfl⟩
      · exact ⟨opcode.op2, by simp [OpcodeOf.operands], _, rfl⟩
      · exact ⟨opcode.op3, by simp [OpcodeOf.operands], _, rfl⟩
      · exact ⟨opcode.op4, by simp [OpcodeOf.operands], _, rfl⟩
    · obtain ⟨found, present, rest⟩ := ih later
      exact ⟨found, List.mem_cons_of_mem _ present, rest⟩

/-- From the `index`-th on, `count` strings have the same bytes behind them in both. -/
def Alike (behind other : Nat → UInt32) (index count : Nat) : Prop :=
  ∀ position < count, behind (index + position) = other (index + position)

theorem Alike.add_iff : Alike behind other index (first + second) ↔
    Alike behind other index first ∧ Alike behind other (index + first) second := by
  constructor
  · intro alike
    refine ⟨fun position below => alike position (by omega), fun position below => ?_⟩
    have later := alike (first + position) (by omega)
    rwa [← Nat.add_assoc] at later
  · rintro ⟨early, late⟩ position below
    by_cases inFirst : position < first
    · exact early position inFirst
    · have later := late (position - first) (by omega)
      rwa [show index + first + (position - first) = index + position by omega] at later

theorem ModuleOperand.image_eq_iff (operand : ModuleOperand) :
    operand.image base behind index = operand.image base other index ↔
      Alike behind other index operand.erase.stringCount := by
  cases operand with
  | null | boolean | long => simp [image, Alike, erase, Operand.stringCount]
  | string stored => simp [image, linkAt, Alike, erase, Operand.stringCount]
  | array addr stored =>
    simp only [image, linkAt, ImageOperand.array.injEq, Link.mk.injEq, true_and,
      List.mapIdx_eq_mapIdx_iff, StoredString.mk.injEq, Alike, erase, Operand.stringCount,
      List.length_map]

theorem ModuleOpcode.image_eq_iff (opcode : ModuleOpcode) :
    ModuleOpcode.image base behind index opcode = ModuleOpcode.image base other index opcode ↔
      Alike behind other index opcode.erase.stringCount := by
  simp only [ModuleOpcode.image, OpcodeOf.mk.injEq, ModuleOperand.image_eq_iff, true_and, and_true,
    ModuleOpcode.erase, OpcodeOf.map, OpcodeOf.stringCount, Alike.add_iff, Nat.add_assoc]

/-- Two images of a module differ only behind its strings. -/
theorem opcodesImage_eq_iff (opcodes : List ModuleOpcode) :
    opcodesImage base behind index opcodes = opcodesImage base other index opcodes ↔
      Alike behind other index (opcodes.map fun opcode => opcode.erase.stringCount).sum := by
  induction opcodes generalizing index with
  | nil => simp [opcodesImage, Alike]
  | cons opcode rest ih =>
    rw [opcodesImage, opcodesImage, List.cons.injEq, ModuleOpcode.image_eq_iff, ih, List.map_cons,
      List.sum_cons, Alike.add_iff]

/-- The image of a module moved away from address zero. -/
theorem Module.image_shift (module : Module) (origin : module.addr = 0) (now : Int)
    (distance : Nat) : (module.shift now distance).image behind =
      { (module.image behind).relink (.ofNat distance) with ts := now } := by
  unfold Module.image Image.relink Module.shift
  simp only [origin, Nat.zero_add, Image.mk.injEq, true_and, and_true]
  refine ⟨linkAt_shift distance _ _, ?_⟩
  refine (linkAt_shift distance _ _).trans (congrArg (Link.mk _ _) ?_)
  exact opcodesImage_shift distance 0 module.opcodes

/-- Normalized images of a module are the same if and only if its strings have the same bytes
behind them. -/
theorem Module.relink_image_eq_iff (module : Module) (origin : module.addr = 0) (now : Int)
    (code : UInt64) :
    { (module.image other).relink 0 with ts := now, hash := code } =
        { (module.image behind).relink 0 with ts := now, hash := code } ↔
      ∀ index < module.stringTotal, other index = behind index := by
  have linked (behind : Nat → UInt32) :
      (opcodesImage 0 behind 0 module.opcodes).map (OpcodeOf.map (ImageOperand.relink 0)) =
        opcodesImage 0 behind 0 (module.opcodes.map (ModuleOpcode.shift 0)) :=
    (opcodesImage_shift 0 0 module.opcodes).symm
  have strings : ((module.opcodes.map (ModuleOpcode.shift 0)).map fun opcode =>
      opcode.erase.stringCount).sum = module.stringTotal := by
    simp [Module.stringTotal, ModuleOpcode.shift, ModuleOpcode.erase, OpcodeOf.map,
      Function.comp_def]
  simp only [Image.relink, Module.image, origin, Image.mk.injEq, true_and, and_true,
    Link.retarget, Link.relink, Link.mk.injEq, linkAt, linked, opcodesImage_eq_iff, strings,
    Alike, Nat.zero_add]

end Images

/-- Pointers of a module at `base` that lead to its first `size` bytes or just behind. -/
def Inside (base size : Nat) (pointers : List (UInt64 × UInt64)) : Prop :=
  ∀ pointer ∈ pointers, ∃ offset ≤ size,
    pointer.1 = .ofNat (base + offset) ∧ pointer.2 = .ofNat offset

theorem inside_pointer (low : base ≤ ptr) (high : ptr ≤ base + size) :
    ∃ offset ≤ size, (UInt64.ofNat ptr, UInt64.ofNat (ptr - base)).1 = .ofNat (base + offset) ∧
      (UInt64.ofNat ptr, UInt64.ofNat (ptr - base)).2 = .ofNat offset := by
  refine ⟨ptr - base, by omega, ?_, rfl⟩
  rw [Nat.add_sub_cancel' low]

theorem ModuleOperand.inside (operand : ModuleOperand)
    (within : Serializer.OperandWithin low (base + size) operand) (above : base ≤ low) :
    Inside base size (operand.image base behind index).pointers := by
  intro pointer member
  cases operand with
  | null | boolean | long => cases member
  | string stored =>
    rw [List.mem_singleton.mp member]
    exact inside_pointer (Nat.le_trans above within.1)
      (Nat.le_trans (Nat.le_add_right _ _) within.2)
  | array addr stored =>
    obtain ⟨start, stop, items⟩ := within
    rcases List.mem_cons.mp member with rfl | element
    · exact inside_pointer (Nat.le_trans above start)
        (Nat.le_trans (Nat.le_add_right _ _) stop)
    · obtain ⟨link, inArray, rfl⟩ := List.mem_map.mp element
      obtain ⟨position, bound, rfl⟩ := List.mem_mapIdx.mp inArray
      obtain ⟨itemStart, itemStop⟩ := items stored[position] (List.getElem_mem bound)
      exact inside_pointer (Nat.le_trans above itemStart)
        (Nat.le_trans (Nat.le_add_right _ _) itemStop)

namespace Serializer

/-- What serializing fixes besides the tables. -/
structure Framed (module : Module) (now : Int) (addr : Nat) : Prop where
  at_addr : module.addr = addr
  version : module.version = handlebarsVersion
  ts : module.ts = now
  programs : addr ≤ module.programsAddr ∧ module.programsAddr ≤ addr + module.size
  opcodes : addr ≤ module.opcodesAddr ∧ module.opcodesAddr ≤ addr + module.size

theorem programSerialize_framed (now : Int) (addr : Nat) (program : Program)
    (bounded : program.PushProgramsBelow)
    (success : programSerialize now addr program = some module) : Framed module now addr := by
  rw [programSerialize, allocate_eq, serializeProgram, serializeProgramShallow] at success
  obtain ⟨after, result, grown, -⟩ := serializeProgram2_spec program
    { hash := 0, version := handlebarsVersion, addr := addr
      size := sizeofModule + measuredSize program
      ts := now, flags := program.flags, programCount := 1
      programsAddr := addr + sizeofModule, programs := [⟨0, 0, 0⟩], opcodeCount := 0
      opcodesAddr := addr + sizeofModule + sizeofTableEntry * (program.descendants + 1)
      opcodes := []
      dataOffset := sizeofTableEntry * (program.descendants + 1) +
        sizeofOpcode * program.opcodeTotal } 0
    ⟨rfl, rfl⟩ ⟨⟨0, 0, 0⟩, rfl, rfl⟩ bounded
  have same : module = after := Option.some.inj (success.symm.trans result)
  rw [same, grown.frame]
  refine ⟨rfl, rfl, rfl, ⟨Nat.le_add_right _ _, ?_⟩, ?_, ?_⟩
  · exact Nat.add_le_add_left (Nat.le_add_right _ _) addr
  · dsimp only
    omega
  · dsimp only
    rw [measuredSize]
    omega

end Serializer

/-- A module that was stored without its address and loaded at another one. -/
structure Loaded (module : Module) (behind : Nat → UInt32) (target : Nat) (moved : Image) :
    Prop where
  addr : moved.addr = .ofNat target
  offsets : moved.pointers.map Prod.snd = (module.image behind).pointers.map Prod.snd
  inside : Inside target module.size moved.pointers
  contents : moved.read (.ofNat target) =
    some (module.programs, module.opcodes.map ModuleOpcode.erase)
  header : moved.version = module.version ∧ moved.size = module.size ∧ moved.ts = module.ts ∧
    moved.flags = module.flags ∧ moved.programCount = module.programCount ∧
    moved.opcodeCount = module.opcodeCount ∧ moved.dataOffset = module.dataOffset
  patched : moved.patchPointers (.ofNat target) = some moved

/-- A program tree is serialized into a module whose operands lie behind its opcodes. -/
theorem Serializer.programSerialize_inside (now : Int) (addr : Nat) (program : Program)
    (bounded : program.PushProgramsBelow) :
    ∃ module, Serializer.programSerialize now addr program = some module ∧
      ∀ opcode ∈ module.opcodes, Serializer.OpcodeWithin
        (module.opcodesAddr + Serializer.sizeofOpcode * module.opcodeCount)
        (module.addr + module.size) opcode := by
  have counted : Serializer.Counted
      (Serializer.serializeProgramShallow (Serializer.allocate now addr program)).2 := by
    rw [Serializer.allocate_eq]
    exact ⟨rfl, rfl⟩
  have named : Serializer.Named
      (Serializer.serializeProgramShallow (Serializer.allocate now addr program)).2 0 := by
    rw [Serializer.allocate_eq]
    exact ⟨⟨0, 0, 0⟩, rfl, rfl⟩
  obtain ⟨after, success, grown, -⟩ := Serializer.serializeProgram2_spec program _ 0 counted named bounded
  rw [Serializer.allocate_eq] at success grown
  refine ⟨after, ?_, fun opcode member => ?_⟩
  · rw [Serializer.programSerialize, Serializer.allocate_eq]
    exact success
  · obtain ⟨new, extended, -, within⟩ := grown.written
    have size : Serializer.sizeofModule + after.dataOffset = after.size := by
      rw [grown.frame]
      simp only [Serializer.serializeProgramShallow, Serializer.measuredSize]
    rw [extended] at member
    refine (within opcode member).widen ?_ ?_
    · rw [grown.frame]
      simp [Serializer.serializeProgramShallow, Serializer.dataEnd, Nat.add_assoc]
    · rw [Serializer.dataEnd, ← size]
      omega

/-- The image of a serialized module and that of the same tree serialized at address
zero. -/
theorem image_serialized (now : Int) (addr : Nat) (behind : Nat → UInt32) (program : Program)
    (bounded : program.PushProgramsBelow) :
    ∃ origin : Module, Serializer.programSerialize 0 0 program = some origin ∧
      ∃ module, Serializer.programSerialize now addr program = some module ∧
        module.image behind = { (origin.image behind).relink (.ofNat addr) with ts := now } := by
  obtain ⟨origin, success, -⟩ := Serializer.programSerialize_inside 0 0 program bounded
  have zero := (Serializer.programSerialize_framed 0 0 program bounded success).at_addr
  refine ⟨origin, success, _, ?_, origin.image_shift zero now addr⟩
  rw [Serializer.programSerialize_shift now addr program bounded, success]
  rfl

/-- All pointers of a serialized module lead into it. -/
theorem image_inside (now : Int) (addr : Nat) (behind : Nat → UInt32) (program : Program)
    (bounded : program.PushProgramsBelow)
    (success : Serializer.programSerialize now addr program = some module) :
    Inside addr module.size (module.image behind).pointers := by
  obtain ⟨other, same, inside⟩ := Serializer.programSerialize_inside now addr program bounded
  have equal : other = module := Option.some.inj (same.symm.trans success)
  subst equal
  have framed := Serializer.programSerialize_framed now addr program bounded success
  intro pointer member
  rcases List.mem_cons.mp member with rfl | member
  · have inside := inside_pointer framed.programs.1 framed.programs.2
    rw [← framed.at_addr] at inside ⊢
    exact inside
  rcases List.mem_cons.mp member with rfl | member
  · have inside := inside_pointer framed.opcodes.1 framed.opcodes.2
    rw [← framed.at_addr] at inside ⊢
    exact inside
  obtain ⟨opcode, inCode, inOpcode⟩ := List.mem_flatMap.mp member
  obtain ⟨operand, inOperands, inOperand⟩ := List.mem_flatMap.mp inOpcode
  obtain ⟨written, inModule, original, inOriginal, place, rfl⟩ :=
    mem_opcodesImage other.opcodes inCode inOperands
  have within := inside written inModule original inOriginal
  rw [framed.at_addr] at within inOperand
  exact original.inside within (Nat.le_trans framed.opcodes.1 (Nat.le_add_right _ _)) pointer
    inOperand

/-- A module whose image is linked for its address, with the image linked for another. -/
theorem loaded_relink {module : Module} {image : Image}
    (same : module.image behind = image.relink (.ofNat addr))
    (inside : Inside addr module.size (module.image behind).pointers) (hash : UInt64) :
    Loaded module behind target { image.relink (.ofNat target) with hash := hash } := by
  have pointers : Image.pointers { image.relink (.ofNat target) with hash := hash } =
      image.pointers.map fun pointer => (.ofNat target + pointer.2, pointer.2) :=
    Image.pointers_relink
  have before : (module.image behind).pointers =
      image.pointers.map fun pointer => (.ofNat addr + pointer.2, pointer.2) := by
    rw [same]
    exact Image.pointers_relink
  refine ⟨rfl, ?_, ?_, ?_, ?_, if_pos rfl⟩
  · rw [pointers, before, List.map_map, List.map_map]
    rfl
  · intro pointer member
    rw [pointers] at member
    obtain ⟨original, present, rfl⟩ := List.mem_map.mp member
    obtain ⟨offset, bound, -, place⟩ :=
      inside (.ofNat addr + original.2, original.2) (by
        rw [before]
        exact List.mem_map_of_mem present)
    refine ⟨offset, bound, ?_, place⟩
    dsimp only at place ⊢
    rw [place, UInt64.ofNat_add]
  · have read : Image.read (.ofNat target) { image.relink (.ofNat target) with hash := hash } =
        some (image.programs.target,
          image.opcodes.target.map (OpcodeOf.map ImageOperand.erase)) := Image.read_relink
    have programs : module.programs = image.programs.target :=
      congrArg (fun image : Image => image.programs.target) same
    have opcodes : (module.image behind).opcodes.target.map (OpcodeOf.map ImageOperand.erase) =
        module.opcodes.map ModuleOpcode.erase := opcodesImage_erase 0 module.opcodes
    rw [same] at opcodes
    change List.map _ (List.map _ _) = _ at opcodes
    rw [List.map_map] at opcodes
    rw [read, programs, ← opcodes]
    refine congrArg (fun contents => some (image.programs.target, contents)) ?_
    refine List.map_congr_left fun opcode _ => ?_
    simp only [Function.comp_apply, OpcodeOf.map, ImageOperand.erase_relink]
  · have fields : ∀ {β : Type} (field : Image → β), field (module.image behind) =
        field (image.relink (.ofNat addr)) := fun field => congrArg field same
    exact ⟨(fields Image.version).symm, (fields Image.size).symm, (fields Image.ts).symm,
      (fields Image.flags).symm, (fields Image.programCount).symm,
      (fields Image.opcodeCount).symm, (fields Image.dataOffset).symm⟩

/-- A serialized module can be normalized to address zero, where it is the tree's own, then
verifies, and patched at any address. -/
theorem image_loads (contentHash : Image → UInt64) (now : Int) (addr target : Nat)
    (behind : Nat → UInt32) (program : Program) (bounded : program.PushProgramsBelow) :
    ∃ origin module normalized moved,
      Serializer.programSerialize 0 0 program = some origin ∧
      normalized = { origin.image behind with ts := now }.relink 0 ∧
      Serializer.programSerialize now addr program = some module ∧
      (module.image behind).normalizePointers (.ofNat addr) 0 = some normalized ∧
      (normalized.generateHash contentHash).verify contentHash = true ∧
      (normalized.generateHash contentHash).patchPointers (.ofNat target) = some moved ∧
      Loaded module behind target moved := by
  obtain ⟨origin, fromZero, module, success, same⟩ :=
    image_serialized now addr behind program bounded
  have framed := Serializer.programSerialize_framed now addr program bounded success
  have linked : module.image behind =
      { origin.image behind with ts := now }.relink (.ofNat addr) := same
  have normalized : (module.image behind).normalizePointers (.ofNat addr) 0 =
      some ({ origin.image behind with ts := now }.relink 0) := by
    rw [linked, Image.normalizePointers_relink]
  refine ⟨origin, module, _, _, fromZero, rfl, success, normalized, ?_,
    Image.patchPointers_generateHash contentHash,
    loaded_relink linked (image_inside now addr behind program bounded success) _⟩
  refine Image.verify_generateHash contentHash ?_
  rw [← framed.version]
  exact congrArg Image.version linked.symm

/-- Wherever a program tree is serialized, its module can be normalized to address zero,
then verifies, and patched at any address. The normalized images of all its modules are the
same but for the time stamp and the hash if and only if the strings of the tree have the same
bytes behind them each time. -/
theorem image_relocates (contentHash : Image → UInt64) (now later : Int)
    (addr other target : Nat) (behind otherBehind : Nat → UInt32) (program : Program)
    (bounded : program.PushProgramsBelow) :
    ∃ module normalized moved otherModule otherNormalized,
      Serializer.programSerialize now addr program = some module ∧
      (module.image behind).normalizePointers (.ofNat addr) 0 = some normalized ∧
      (normalized.generateHash contentHash).verify contentHash = true ∧
      (normalized.generateHash contentHash).patchPointers (.ofNat target) = some moved ∧
      Loaded module behind target moved ∧
      Serializer.programSerialize later other program = some otherModule ∧
      (otherModule.image otherBehind).normalizePointers (.ofNat other) 0 = some otherNormalized ∧
      ({ otherNormalized.generateHash contentHash with
          ts := now, hash := (normalized.generateHash contentHash).hash } =
        normalized.generateHash contentHash ↔
        ∀ index < program.stringTotal, otherBehind index = behind index) := by
  obtain ⟨origin, module, normalized, moved, fromZero, stripped, success, result, verified,
    patched, loaded⟩ := image_loads contentHash now addr target behind program bounded
  obtain ⟨origin', otherModule, otherNormalized, -, fromZero', otherStripped, otherSuccess,
    otherResult, -, -, -⟩ := image_loads contentHash later other target otherBehind program bounded
  have sameOrigin : origin' = origin := Option.some.inj (fromZero'.symm.trans fromZero)
  subst sameOrigin
  refine ⟨module, normalized, moved, otherModule, otherNormalized, success, result, verified,
    patched, loaded, otherSuccess, otherResult, ?_⟩
  rw [← Serializer.programSerialize_stringTotal 0 0 program fromZero]
  subst stripped otherStripped
  exact origin'.relink_image_eq_iff
    (Serializer.programSerialize_framed 0 0 program bounded fromZero).at_addr now _

theorem image_relocates_block : ∃ module normalized moved otherModule otherNormalized,
    Serializer.programSerialize 1 4096 Serializer.blockProgram = some module ∧
    (module.image fun _ => 0).normalizePointers 4096 0 = some normalized ∧
    (normalized.generateHash fun _ => 7).patchPointers 12288 = some moved ∧
    Loaded module (fun _ => 0) 12288 moved ∧
    Serializer.programSerialize 2 8192 Serializer.blockProgram = some otherModule ∧
    (otherModule.image fun index => if index = 0 then 0 else 1).normalizePointers 8192 0 =
      some otherNormalized ∧
    { otherNormalized.generateHash fun _ => 7 with ts := 1 } =
      normalized.generateHash fun _ => 7 := by
  obtain ⟨module, normalized, moved, otherModule, otherNormalized, success, result, -, patched,
    loaded, otherSuccess, otherResult, same⟩ :=
    image_relocates (fun _ => 7) 1 2 4096 8192 12288 (fun _ => 0)
      (fun index => if index = 0 then 0 else 1) Serializer.blockProgram Serializer.blockProgram_below
  refine ⟨module, normalized, moved, otherModule, otherNormalized, success, result, patched,
    loaded, otherSuccess, otherResult, same.mpr fun index below => if_pos ?_⟩
  exact Nat.lt_one_iff.mp below

/-- `{{foo "\x62"}}` and `{{foo "\142"}}`: the first string of both is `b`, but behind its NUL
`handlebars_string_stripcslashes` leaves the last digits of the escape. -/
def escapeProgram : Program :=
  .mk 0 0 0 0
    [{ opcodeCtor .pushString with op1 := .string (bytes "b") },
      opcodeCtor .pushProgram, opcodeCtor .pushProgram, opcodeCtor .emptyHash,
      { opcodeCtor .getContext with op1 := .long 0 },
      { opcodeCtor .lookupOnContext with
        op1 := .array [bytes "foo"], op2 := .boolean true, op3 := .boolean true
        op4 := .boolean false },
      { opcodeCtor .invokeHelper with
        op1 := .long 1, op2 := .string (bytes "foo"), op3 := .boolean true },
      opcodeCtor .appendEscaped] [] []

/-- Two digits behind the first string, as a little-endian machine reads them. -/
def digitsBehind (first second : Char) : Nat → UInt32
  | 0 => first.val + 256 * second.val
  | _ => 0

/-- Equal trees are serialized into images that differ. -/
theorem not_image_relocates_escape : ∃ module normalized otherModule otherNormalized,
    Serializer.programSerialize 1 4096 escapeProgram = some module ∧
    (module.image (digitsBehind '6' '2')).normalizePointers 4096 0 = some normalized ∧
    Serializer.programSerialize 2 8192 escapeProgram = some otherModule ∧
    (otherModule.image (digitsBehind '4' '2')).normalizePointers 8192 0 = some otherNormalized ∧
    { otherNormalized.generateHash fun _ => 7 with ts := 1 } ≠
      normalized.generateHash fun _ => 7 := by
  refine ⟨_, _, _, _, rfl, rfl, rfl, rfl, ?_⟩
  decide

end HandlebarsC
