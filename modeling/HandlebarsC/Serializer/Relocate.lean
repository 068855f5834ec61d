import HandlebarsC.Serializer.Model

/-!
Modules are position dependent. Copies are moved by adding the distance between
the recorded address and the new one to every pointer.
-/

namespace HandlebarsC

namespace Serializer

/-- `PATCH` -/
def patchPtr (source target ptr : Nat) : Nat :=
  ptr - source + target

def patchString (source target : Nat) (stored : ModuleString) : ModuleString :=
  { stored with addr := patchPtr source target stored.addr }

/-- `normalize_operand` and `patch_operand` -/
def patchOperand (source target : Nat) : ModuleOperand → ModuleOperand
  | .string stored => .string (patchString source target stored)
  | .array addr stored => .array (patchPtr source target addr) (stored.map (patchString source target))
  | operand => operand

/-- `handlebars_module_normalize_pointers` -/
def normalizePointers (module : Module) (baseaddr : Nat) : Module :=
  if module.addr = baseaddr then module
  else
    { module with
      opcodes := module.opcodes.map (OpcodeOf.map (patchOperand module.addr baseaddr))
      programsAddr := patchPtr module.addr baseaddr module.programsAddr
      opcodesAddr := patchPtr module.addr baseaddr module.opcodesAddr
      addr := baseaddr }

/-- `handlebars_module_patch_pointers`, for a module that lies at `self`. -/
def patchPointers (module : Module) (self : Nat) : Module :=
  normalizePointers module self

/-- `calculate_hash` over a hash of byte strings: the `hash` field itself is left out. -/
def calculateHash (moduleHash : Module → UInt64) (module : Module) : UInt64 :=
  moduleHash { module with hash := 0 }

/-- `handlebars_module_generate_hash` -/
def generateHash (moduleHash : Module → UInt64) (module : Module) : Module :=
  { module with hash := calculateHash moduleHash module }

/-- `handlebars_module_verify` without a context to throw in. -/
def moduleVerify (moduleHash : Module → UInt64) (module : Module) : Bool :=
  calculateHash moduleHash module == module.hash && handlebarsVersion == module.version

@[simp] theorem patchOperand_erase (source target : Nat) (operand : ModuleOperand) :
    (patchOperand source target operand).erase = operand.erase := by
  cases operand <;> simp [patchOperand, ModuleOperand.erase, patchString, Function.comp_def]

/-- Moving a module changes nothing but addresses. -/
structure SameContents (left right : Module) : Prop where
  version : left.version = right.version
  size : left.size = right.size
  ts : left.ts = right.ts
  flags : left.flags = right.flags
  programCount : left.programCount = right.programCount
  programs : left.programs = right.programs
  opcodeCount : left.opcodeCount = right.opcodeCount
  opcodes : left.opcodes.map ModuleOpcode.erase = right.opcodes.map ModuleOpcode.erase

theorem SameContents.trans (first : SameContents left middle) (second : SameContents middle right) :
    SameContents left right := by
  constructor
  · exact first.version.trans second.version
  · exact first.size.trans second.size
  · exact first.ts.trans second.ts
  · exact first.flags.trans second.flags
  · exact first.programCount.trans second.programCount
  · exact first.programs.trans second.programs
  · exact first.opcodeCount.trans second.opcodeCount
  · exact first.opcodes.trans second.opcodes

theorem normalizePointers_contents (module : Module) (baseaddr : Nat) :
    SameContents (normalizePointers module baseaddr) module := by
  unfold normalizePointers
  split
  · exact ⟨rfl, rfl, rfl, rfl, rfl, rfl, rfl, rfl⟩
  · refine ⟨rfl, rfl, rfl, rfl, rfl, rfl, rfl, ?_⟩
    simp [List.map_map, Function.comp_def, ModuleOpcode.erase, OpcodeOf.map]

theorem generateHash_contents (moduleHash : Module → UInt64) (module : Module) :
    SameContents (generateHash moduleHash module) module :=
  ⟨rfl, rfl, rfl, rfl, rfl, rfl, rfl, rfl⟩

/-- A hash that was just generated verifies. -/
theorem moduleVerify_generateHash (moduleHash : Module → UInt64) (module : Module) :
    moduleVerify moduleHash (generateHash moduleHash module) =
      (handlebarsVersion == module.version) := by
  simp [moduleVerify, generateHash, calculateHash]

end Serializer

end HandlebarsC
