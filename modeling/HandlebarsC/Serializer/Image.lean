import HandlebarsC.Foundation.Link
import HandlebarsC.Serializer.Relocate

/-!
A module as it lies in memory, where its pointers may lead anywhere: normalizing and
patching walk over the image through the very pointers they rewrite.
-/

namespace HandlebarsC

/-- The bytes of a `handlebars_string` that `append` copied: `val` is not the end of the
struct, so `HBS_STR_SIZE` covers four more bytes behind the NUL. -/
structure StoredString where
  val : Str
  behind : UInt32
  deriving DecidableEq, Repr

/-- A `handlebars_operand` in an image. -/
inductive ImageOperand where
  | null (boolval : Bool)
  | boolean (boolval : Bool)
  | long (longval : Int)
  | string (string : Link StoredString)
  | array (array : Link (List (Link StoredString)))
  deriving DecidableEq, Repr

abbrev ImageOpcode := OpcodeOf ImageOperand

/-- `struct handlebars_module` with all that its pointers should lead to. -/
structure Image where
  hash : UInt64
  version : Nat
  addr : UInt64
  size : Nat
  ts : Int
  flags : Flags
  programCount : Nat
  programs : Link (List TableEntry)
  opcodeCount : Nat
  opcodes : Link (List ImageOpcode)
  dataOffset : Nat
  deriving DecidableEq, Repr

/-- The operands in their order, each under its own check. -/
def OpcodeOf.traverse (change : ω → Option υ) (opcode : OpcodeOf ω) : Option (OpcodeOf υ) := do
  let op1 ← change opcode.op1
  let op2 ← change opcode.op2
  let op3 ← change opcode.op3
  let op4 ← change opcode.op4
  some ⟨opcode.type, op1, op2, op3, op4, opcode.loc⟩

namespace ImageOperand

/-- The loop over an array's elements, each of which is reached through the array's
pointer. -/
def patchElements (self source baseaddr : UInt64) (array : Link (List (Link StoredString))) :
    Option (List (Link StoredString)) :=
  array.target.mapM fun element => (array.follow self).map fun _ => element.patch source baseaddr

/-- `normalize_operand` in an image at `self`: the elements come before the pointer. -/
def normalize (self source baseaddr : UInt64) : ImageOperand → Option ImageOperand
  | .string link => some (.string (link.patch source baseaddr))
  | .array link => do
    let elements ← patchElements self source baseaddr link
    some (.array ((link.patch source baseaddr).retarget elements))
  | operand => some operand

/-- `patch_operand`: the pointer comes before the elements. -/
def patch (self source baseaddr : UInt64) : ImageOperand → Option ImageOperand
  | .string link => some (.string (link.patch source baseaddr))
  | .array link => do
    let link := link.patch source baseaddr
    let elements ← patchElements self source baseaddr link
    some (.array (link.retarget elements))
  | operand => some operand

/-- What is read through the operand's pointers. -/
def read (self : UInt64) : ImageOperand → Option Operand
  | .null flag => some (.null flag)
  | .boolean flag => some (.boolean flag)
  | .long longval => some (.long longval)
  | .string link => (link.follow self).map fun stored => .string stored.val
  | .array link => do
    let elements ← link.follow self
    let strings ← elements.mapM (Link.follow self)
    some (.array (strings.map StoredString.val))

/-- The operand with its pointers set for an image at `base`. -/
def relink (base : UInt64) : ImageOperand → ImageOperand
  | .string link => .string (link.relink base)
  | .array link => .array ((link.relink base).retarget (link.target.map (Link.relink base)))
  | operand => operand

/-- The operand without its pointers. -/
def erase : ImageOperand → Operand
  | .null flag => .null flag
  | .boolean flag => .boolean flag
  | .long longval => .long longval
  | .string link => .string link.target.val
  | .array link => .array (link.target.map fun element => element.target.val)

/-- Each pointer with the offset it should have. -/
def pointers : ImageOperand → List (UInt64 × UInt64)
  | .string link => [(link.ptr, link.offset)]
  | .array link =>
    (link.ptr, link.offset) :: link.target.map fun element => (element.ptr, element.offset)
  | _ => []

end ImageOperand

namespace Image

/-- `handlebars_module_normalize_pointers` for an image at `self`. -/
def normalizePointers (self : UInt64) (image : Image) (baseaddr : UInt64) : Option Image :=
  if image.addr = baseaddr then some image
  else do
    let opcodes ← image.opcodes.target.mapM fun opcode =>
      (image.opcodes.follow self).bind fun _ =>
        opcode.traverse (ImageOperand.normalize self image.addr baseaddr)
    some { image with
      programs := image.programs.patch image.addr baseaddr
      opcodes := (image.opcodes.patch image.addr baseaddr).retarget opcodes
      addr := baseaddr }

/-- `handlebars_module_patch_pointers` for an image at `self`. -/
def patchPointers (self : UInt64) (image : Image) : Option Image :=
  if image.addr = self then some image
  else do
    let programs := image.programs.patch image.addr self
    let link := image.opcodes.patch image.addr self
    let opcodes ← link.target.mapM fun opcode =>
      (link.follow self).bind fun _ => opcode.traverse (ImageOperand.patch self image.addr self)
    some { image with
      programs := programs
      opcodes := link.retarget opcodes
      addr := self }

/-- `handlebars_module_generate_hash`, over a hash of everything from the version on. -/
def generateHash (contentHash : Image → UInt64) (image : Image) : Image :=
  { image with hash := contentHash { image with hash := 0 } }

/-- `handlebars_module_verify` without a context to throw in. -/
def verify (contentHash : Image → UInt64) (image : Image) : Bool :=
  contentHash { image with hash := 0 } == image.hash && handlebarsVersion == image.version

/-- What the program table and the opcodes are when read through the pointers. -/
def read (self : UInt64) (image : Image) : Option (List TableEntry × List Opcode) := do
  let programs ← image.programs.follow self
  let opcodes ← image.opcodes.follow self
  let opcodes ← opcodes.mapM (OpcodeOf.traverse (ImageOperand.read self))
  some (programs, opcodes)

/-- The image with its pointers set for an address. -/
def relink (base : UInt64) (image : Image) : Image :=
  { image with
    addr := base
    programs := image.programs.relink base
    opcodes := (image.opcodes.relink base).retarget
      (image.opcodes.target.map (OpcodeOf.map (ImageOperand.relink base))) }

/-- All pointers, each with the offset it should have. -/
def pointers (image : Image) : List (UInt64 × UInt64) :=
  (image.programs.ptr, image.programs.offset) :: (image.opcodes.ptr, image.opcodes.offset) ::
    image.opcodes.target.flatMap fun opcode => opcode.operands.flatMap ImageOperand.pointers

end Image

namespace ImageOperand

variable {self source baseaddr : UInt64} {operand : ImageOperand}

theorem patchElements_relink {link : Link (List (Link StoredString))}
    (elements : List (Link StoredString)) :
    patchElements self source baseaddr
        ((link.relink self).retarget (elements.map (Link.relink source))) =
      some (elements.map (Link.relink baseaddr)) := by
  unfold patchElements
  rw [Link.mapM_some (Link.patch source baseaddr)]
  · simp [Link.retarget, Function.comp_def]
  · intro element _
    rw [Link.follow_retarget]
    rfl

/-- At its own address an operand is normalized for another. -/
theorem normalize_relink : normalize self self baseaddr (operand.relink self) =
    some (operand.relink baseaddr) := by
  cases operand with
  | null | boolean | long => rfl
  | string link => simp only [relink, normalize, Link.patch_relink]
  | array link =>
    simp only [relink, normalize, patchElements_relink, Link.patch_retarget, Link.patch_relink]
    rfl

/-- At another address than it was written for, it is patched for its own. -/
theorem patch_relink : patch self source self (operand.relink source) =
    some (operand.relink self) := by
  cases operand with
  | null | boolean | long => rfl
  | string link => simp only [relink, patch, Link.patch_relink]
  | array link =>
    simp only [relink, patch, patchElements_relink, Link.patch_retarget, Link.patch_relink]
    rfl

theorem read_relink : (operand.relink self).read self = some operand.erase := by
  cases operand with
  | null | boolean | long => rfl
  | string link =>
    rw [relink, read, Link.follow_relink]
    rfl
  | array link =>
    rw [relink, read, Link.follow_retarget]
    change ((link.target.map (Link.relink self)).mapM (Link.follow self)).bind _ = _
    rw [Link.mapM_some Link.target]
    · simp [erase, Function.comp_def]
    · intro element member
      obtain ⟨stored, -, rfl⟩ := List.mem_map.mp member
      exact Link.follow_relink

@[simp] theorem relink_relink : (operand.relink source).relink self = operand.relink self := by
  cases operand with
  | null | boolean | long => rfl
  | string link => rfl
  | array link => simp [relink, Link.retarget, Function.comp_def, Link.relink]

theorem pointers_relink : (operand.relink self).pointers =
    operand.pointers.map fun pointer => (self + pointer.2, pointer.2) := by
  cases operand with
  | null | boolean | long => rfl
  | string link => rfl
  | array link =>
    simp [relink, pointers, Link.retarget, Link.relink, Function.comp_def]

@[simp] theorem erase_relink : (operand.relink self).erase = operand.erase := by
  cases operand with
  | null | boolean | long => rfl
  | string link => rfl
  | array link => simp [relink, erase, Link.retarget, Function.comp_def]

end ImageOperand

namespace Image

variable {self source baseaddr : UInt64} {image : Image}

theorem relink_relink : (image.relink source).relink self = image.relink self := by
  simp [relink, Link.retarget, Link.relink, Function.comp_def, OpcodeOf.map]

/-- The walk over the opcodes of an image, each of which is reached through the pointer
to them. -/
theorem opcodes_relink (image : Image) (self : UInt64)
    {check : ImageOperand → Option ImageOperand} (opcodes : List ImageOpcode)
    (checked : ∀ operand : ImageOperand,
      check (operand.relink source) = some (operand.relink baseaddr)) :
    ((opcodes.map (OpcodeOf.map (ImageOperand.relink source))).mapM fun opcode =>
        (((image.opcodes.relink self).retarget
          (opcodes.map (OpcodeOf.map (ImageOperand.relink source)))).follow self).bind fun _ =>
          opcode.traverse check) =
      some (opcodes.map (OpcodeOf.map (ImageOperand.relink baseaddr))) := by
  rw [List.mapM_map, Link.mapM_some (OpcodeOf.map (ImageOperand.relink baseaddr))]
  intro opcode _
  rw [Function.comp_apply, Link.follow_retarget, Option.bind_some]
  simp only [OpcodeOf.traverse, OpcodeOf.map, checked]
  rfl

/-- Where it was linked for, an image is normalized for any address. -/
theorem normalizePointers_relink :
    (image.relink self).normalizePointers self baseaddr = some (image.relink baseaddr) := by
  by_cases same : self = baseaddr
  · rw [normalizePointers, if_pos (show (image.relink self).addr = baseaddr from same), same]
  · have walked := opcodes_relink image self image.opcodes.target
      fun operand : ImageOperand =>
        (operand.normalize_relink : (operand.relink self).normalize self self baseaddr = _)
    rw [normalizePointers, if_neg (show ¬(image.relink self).addr = baseaddr from same)]
    simp only [relink, Link.retarget_target, walked, Link.patch_retarget, Link.patch_relink]
    rfl

/-- Wherever it was linked for, an image is patched for where it is. -/
theorem patchPointers_relink :
    (image.relink source).patchPointers self = some (image.relink self) := by
  by_cases same : source = self
  · rw [patchPointers, if_pos (show (image.relink source).addr = self from same), same]
  · have walked := opcodes_relink image self image.opcodes.target
      fun operand : ImageOperand =>
        (operand.patch_relink : (operand.relink source).patch self source self = _)
    rw [patchPointers, if_neg (show ¬(image.relink source).addr = self from same)]
    simp only [relink, Link.retarget_target, Link.patch_retarget, Link.patch_relink, walked]
    rfl

theorem read_relink : (image.relink self).read self =
    some (image.programs.target,
      image.opcodes.target.map (OpcodeOf.map ImageOperand.erase)) := by
  unfold read relink
  simp only [Link.follow_relink, Link.follow_retarget]
  change ((image.opcodes.target.map (OpcodeOf.map (ImageOperand.relink self))).mapM
    (OpcodeOf.traverse (ImageOperand.read self))).bind _ = _
  rw [List.mapM_map, Link.mapM_some (OpcodeOf.map ImageOperand.erase)]
  · rfl
  · intro opcode _
    simp only [Function.comp_apply, OpcodeOf.traverse, OpcodeOf.map, ImageOperand.read_relink]
    rfl

theorem pointers_relink : (image.relink self).pointers =
    image.pointers.map fun pointer => (self + pointer.2, pointer.2) := by
  have operands : ∀ opcode : ImageOpcode,
      (opcode.map (ImageOperand.relink self)).operands =
        opcode.operands.map (ImageOperand.relink self) := fun _ => rfl
  simp only [pointers, relink, Link.retarget_target, List.map_cons, List.map_flatMap,
    List.flatMap_map, operands, ImageOperand.pointers_relink]
  rfl

/-- The hash that was set is carried along. -/
theorem patchPointers_generateHash (contentHash : Image → UInt64) :
    ((image.relink source).generateHash contentHash).patchPointers self =
      some { image.relink self with
        hash := contentHash { image.relink source with hash := 0 } } :=
  let hashed := { image with hash := contentHash { image.relink source with hash := 0 } }
  (patchPointers_relink : (hashed.relink source).patchPointers self = some (hashed.relink self))

theorem verify_generateHash (contentHash : Image → UInt64)
    (version : image.version = handlebarsVersion) :
    (image.generateHash contentHash).verify contentHash = true := by
  simp [verify, generateHash, version]

end Image

end HandlebarsC
