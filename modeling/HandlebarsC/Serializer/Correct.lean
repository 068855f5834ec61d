import Mathlib.Tactic.Ring
import HandlebarsC.Serializer.Writing

namespace HandlebarsC

namespace Program

/-- The opcodes of a node as its module holds them: operands of `push_program`
globalized through the table of its children's guids, and one return. -/
def code (node : Program) (table : List Nat) : List Opcode :=
  node.opcodes.map (OpcodeOf.globalize table) ++ [opcodeCtor .ret]

/-- The guids of the children of the node at `path`. -/
def tableAt (program : Program) (number next : Nat) (path : Path) (node : Program) : List Nat :=
  (List.range node.children.length).map fun index => program.guidAt number next (path ++ [index])

/-- Every `push_program` of the tree names no child or one of its node's own. -/
def PushProgramsBelow (program : Program) : Prop :=
  ∀ path node, program.at? path = some node →
    ∀ opcode ∈ node.opcodes, opcode.PushProgramBelow node.children.length

theorem PushProgramsBelow.node {program : Program}
    (own : ∀ opcode ∈ program.opcodes, opcode.PushProgramBelow program.children.length)
    (children : ∀ child ∈ program.children, child.PushProgramsBelow) : program.PushProgramsBelow := by
  intro path node found
  cases path with
  | nil =>
    cases found
    exact own
  | cons index rest =>
    rw [at?_cons] at found
    obtain ⟨child, present, below⟩ := Option.bind_eq_some_iff.mp found
    exact children child (List.mem_of_getElem? present) rest node below

theorem PushProgramsBelow.child {program child : Program} {index : Nat} (bounded : program.PushProgramsBelow)
    (present : program.children[index]? = some child) : PushProgramsBelow child := by
  intro path node found
  exact bounded (index :: path) node (by rw [at?_cons, present]; exact found)

theorem tableAt_nil (program : Program) (number next : Nat) :
    program.tableAt number next [] program = List.range' next program.children.length := by
  rw [tableAt, List.range'_eq_map_range]
  apply List.map_congr_left
  intro index member
  have present := List.getElem?_eq_getElem (List.mem_range.mp member)
  rw [List.nil_append, guidAt_cons present, guidAt_nil]

theorem tableAt_cons {program child : Program} (present : program.children[index]? = some child) :
    program.tableAt number next (index :: path) node =
      child.tableAt (next + index) (program.nextGuid next index) path node := by
  simp only [tableAt, List.cons_append, guidAt_cons present]

end Program

namespace Serializer

/-- Data bytes of the whole tree. -/
def dataTotal : Program → Nat :=
  Program.total (fun node => opcodesDataSize node.opcodes)

theorem dataTotal_eq (program : Program) :
    dataTotal program =
      opcodesDataSize program.opcodes + (program.children.map dataTotal).sum :=
  Program.total_eq _ program

/-- The module grew by so many programs, opcodes and data bytes; of the entries it
had, only those in `touched` may have changed. -/
structure Grown (before after : Module) (programs opcodes data : Nat) (touched : Nat → Prop) :
    Prop where
  frame : after = { before with
    programs := after.programs
    programCount := before.programCount + programs
    opcodes := after.opcodes
    opcodeCount := before.opcodeCount + opcodes
    dataOffset := before.dataOffset + data }
  programsLength : after.programs.length = before.programs.length + programs
  keep : ∀ position < before.programs.length, ¬ touched position →
    after.programs[position]? = before.programs[position]?
  written : ∃ new, after.opcodes = before.opcodes ++ new ∧ new.length = opcodes ∧
    ∀ opcode ∈ new, OpcodeWithin (dataEnd before) (dataEnd after) opcode

namespace Grown

theorem dataEnd_eq (grown : Grown before after programs opcodes data touched) :
    dataEnd after = dataEnd before + data := by
  rw [grown.frame]
  simp [dataEnd, Nat.add_assoc]

theorem opcodesLength (grown : Grown before after programs opcodes data touched) :
    after.opcodes.length = before.opcodes.length + opcodes := by
  obtain ⟨new, extended, count, -⟩ := grown.written
  rw [extended, List.length_append, count]

theorem programCount (grown : Grown before after programs opcodes data touched) :
    after.programCount = before.programCount + programs := by
  rw [grown.frame]

theorem opcodeCount (grown : Grown before after programs opcodes data touched) :
    after.opcodeCount = before.opcodeCount + opcodes := by
  rw [grown.frame]

theorem refl (module : Module) (touched : Nat → Prop) : Grown module module 0 0 0 touched :=
  ⟨rfl, rfl, fun _ _ _ => rfl, [], by simp⟩

theorem trans (first : Grown before middle programs opcodes data touched)
    (second : Grown middle after morePrograms moreOpcodes moreData moreTouched) :
    Grown before after (programs + morePrograms) (opcodes + moreOpcodes) (data + moreData)
      (fun position => touched position ∨ moreTouched position) := by
  obtain ⟨new, extended, count, within⟩ := first.written
  obtain ⟨later, extendedLater, countLater, withinLater⟩ := second.written
  refine ⟨?_, ?_, ?_, new ++ later, ?_, ?_, ?_⟩
  · rw [second.frame, first.frame]
    simp [Nat.add_assoc]
  · rw [second.programsLength, first.programsLength, Nat.add_assoc]
  · intro position bound untouched
    rw [second.keep position (by rw [first.programsLength]; omega) (fun hit => untouched (.inr hit)),
      first.keep position bound (fun hit => untouched (.inl hit))]
  · rw [extendedLater, extended, List.append_assoc]
  · rw [List.length_append, count, countLater]
  · intro opcode member
    rcases List.mem_append.mp member with early | late
    · exact (within opcode early).widen (Nat.le_refl _) (by rw [second.dataEnd_eq]; omega)
    · exact (withinLater opcode late).widen (by rw [first.dataEnd_eq]; omega) (Nat.le_refl _)

theorem weaken (grown : Grown before after programs opcodes data touched)
    (wider : ∀ position < before.programs.length, touched position → more position) :
    Grown before after programs opcodes data more :=
  ⟨grown.frame, grown.programsLength,
    fun position bound untouched =>
      grown.keep position bound (fun hit => untouched (wider position bound hit)),
    grown.written⟩

end Grown

/-- Where the tables of a module place the nodes of a tree. -/
structure Placed (module : Module) (program : Program) (number next offset : Nat) : Prop where
  entry : ∀ path node, program.at? path = some node →
    module.programs[program.guidAt number next path]? =
      some ⟨program.guidAt number next path, node.opcodes.length + 1, program.offsetAt offset path⟩
  code : ∀ path node, program.at? path = some node →
    (module.slice ⟨program.guidAt number next path, node.opcodes.length + 1,
        program.offsetAt offset path⟩).map ModuleOpcode.erase =
      node.code (program.tableAt number next path node)

theorem slice_extend (extended : after.opcodes = before.opcodes ++ new)
    (bound : entry.opcodeOffset + entry.opcodeCount ≤ before.opcodes.length) :
    Module.slice after entry = Module.slice before entry := by
  rw [Module.slice, Module.slice, extended, List.drop_append_of_le_length (by omega),
    List.take_append_of_le_length (by rw [List.length_drop]; omega)]

/-- Growing elsewhere leaves a placed tree where it is. -/
theorem Placed.grown (placed : Placed before program number next offset)
    (grown : Grown before after programs opcodes data touched)
    (rootKept : number < before.programs.length ∧ ¬ touched number)
    (kept : ∀ position, next ≤ position → position < next + program.descendants →
      position < before.programs.length ∧ ¬ touched position)
    (room : offset + program.opcodeTotal ≤ before.opcodes.length) :
    Placed after program number next offset := by
  obtain ⟨new, extended, -, -⟩ := grown.written
  constructor
  · intro path node found
    have inside : program.guidAt number next path < before.programs.length ∧
        ¬ touched (program.guidAt number next path) := by
      by_cases root : path = []
      · subst root
        exact rootKept
      · obtain ⟨low, high⟩ := Program.guidAt_bounds program number next path root found
        exact kept _ low high
    rw [grown.keep _ inside.1 inside.2]
    exact placed.entry path node found
  · intro path node found
    rw [slice_extend extended]
    · exact placed.code path node found
    · exact Nat.le_trans (Program.offsetAt_stop offset found) room

/-- Counts and arrays of a module under construction agree. -/
def Counted (module : Module) : Prop :=
  module.programs.length = module.programCount ∧ module.opcodes.length = module.opcodeCount

theorem Grown.counted (grown : Grown before after programs opcodes data touched)
    (counted : Counted before) : Counted after := by
  obtain ⟨programsCounted, opcodesCounted⟩ := counted
  exact ⟨by rw [grown.programsLength, grown.programCount, programsCounted],
    by rw [grown.opcodesLength, grown.opcodeCount, opcodesCounted]⟩

/-- `serialize_program2` under an entry that carries its own position as guid. -/
structure Written (before : Module) (program : Program) (number : Nat) (after : Module) : Prop where
  grown : Grown before after program.descendants program.opcodeTotal (dataTotal program)
    (· = number)
  placed : Placed after program number before.programCount before.opcodeCount

/-- The loop over the children, whose entries start at `first`. -/
structure WrittenAll (before : Module) (children : List Program) (first : Nat) (after : Module) :
    Prop where
  grown : Grown before after (children.map Program.descendants).sum
    (children.map Program.opcodeTotal).sum (children.map dataTotal).sum
    (fun position => first ≤ position ∧ position < first + children.length)
  placed : ∀ index child, children[index]? = some child →
    Placed after child (first + index)
      (before.programCount + Blocks.start (children.map Program.descendants) index)
      (before.opcodeCount + Blocks.start (children.map Program.opcodeTotal) index)

/-- The entry at a position carries that position as its guid. -/
def Named (module : Module) (position : Nat) : Prop :=
  ∃ entry, module.programs[position]? = some entry ∧ entry.guid = position

theorem Named.bound (named : Named module position) : position < module.programs.length := by
  obtain ⟨entry, present, -⟩ := named
  exact (List.getElem?_eq_some_iff.mp present).1

theorem writtenAll_cons (first : Written before child number middle)
    (rest : WrittenAll middle children (number + 1) after)
    (counted : Counted before)
    (below : number + 1 + children.length ≤ before.programs.length) :
    WrittenAll before (child :: children) number after := by
  have counts := first.grown.counted counted
  refine ⟨?_, ?_⟩
  · refine (first.grown.trans rest.grown).weaken ?_
    intro position bound hit
    rw [List.length_cons]
    rcases hit with rfl | hit <;> omega
  · intro index later present
    cases index with
    | zero =>
      cases present
      refine first.placed.grown rest.grown ⟨by rw [first.grown.programsLength]; omega, by omega⟩ ?_ ?_
      · intro position low high
        rw [first.grown.programsLength]
        have := counted.1
        omega
      · rw [first.grown.opcodesLength, counted.2]
    | succ index =>
      have placed := rest.placed index later (by simpa using present)
      rw [first.grown.programCount, first.grown.opcodeCount] at placed
      rw [List.map_cons, List.map_cons, Blocks.start_cons, Blocks.start_cons]
      have shift : number + (index + 1) = number + 1 + index := by omega
      rw [shift, ← Nat.add_assoc, ← Nat.add_assoc]
      exact placed

theorem serializeChildren_spec (children : List Program)
    (ih : ∀ child ∈ children, ∀ (before : Module) (number : Nat), Counted before →
      Named before number → child.PushProgramsBelow →
      ∃ after, serializeProgram2 before number child = some after ∧ Written before child number after)
    (before : Module) (first : Nat) (counted : Counted before)
    (named : ∀ position, first ≤ position → position < first + children.length →
      Named before position)
    (bounded : ∀ child ∈ children, child.PushProgramsBelow) :
    ∃ after, serializeProgram2.go before (List.range' first children.length) children = some after ∧
      WrittenAll before children first after := by
  induction children generalizing before first with
  | nil =>
    exact ⟨before, rfl, (Grown.refl before _), fun index child present => by simp at present⟩
  | cons child rest induct =>
    obtain ⟨middle, success, written⟩ := ih child (by simp) before first counted
      (named first (Nat.le_refl _) (by simp)) (bounded child (by simp))
    have namedRest : ∀ position, first + 1 ≤ position → position < first + 1 + rest.length →
        Named middle position := by
      intro position low high
      obtain ⟨entry, present, guid⟩ := named position (by omega) (by rw [List.length_cons]; omega)
      have bound := (List.getElem?_eq_some_iff.mp present).1
      exact ⟨entry, by rw [written.grown.keep position bound (by omega)]; exact present, guid⟩
    obtain ⟨after, successRest, writtenRest⟩ := induct
      (fun later member => ih later (by simp [member])) middle (first + 1)
      (written.grown.counted counted) namedRest (fun later member => bounded later (by simp [member]))
    refine ⟨after, ?_, ?_⟩
    · rw [List.length_cons, List.range'_succ, serializeProgram2.go, success]
      exact successRest
    · refine writtenAll_cons written writtenRest counted ?_
      have last := (named (first + rest.length) (by omega) (by rw [List.length_cons]; omega)).bound
      omega

theorem named_setEntry (named : Named module position) (update : TableEntry → TableEntry)
    (keepsGuid : ∀ entry, (update entry).guid = entry.guid) :
    Named (setEntry module number update) position := by
  obtain ⟨entry, present, guid⟩ := named
  refine ⟨if number = position then update entry else entry, ?_, ?_⟩
  · simp [setEntry, List.getElem?_modify, present]
  · split
    · rw [keepsGuid, guid]
    · exact guid

theorem serializeShallow_named (counted : Counted module) (count position : Nat)
    (low : module.programCount ≤ position) (high : position < module.programCount + count) :
    Named (serializeShallow module count).2 position := by
  refine ⟨⟨position, 0, 0⟩, ?_, rfl⟩
  rw [serializeShallow_eq]
  have offset : position - module.programs.length < count := by have := counted.1; omega
  rw [List.getElem?_append_right (by have := counted.1; omega), List.getElem?_map,
    List.getElem?_range' offset]
  have := counted.1
  simp
  omega

/-- The entry `serializeOwn` fills, and the opcodes its slice covers. -/
theorem serializeOwn_spec (opcodes : List Opcode) (children : List Nat) (counted : Counted before)
    (named : Named before number) (namedChildren : ∀ position ∈ children, Named before position)
    (below : ∀ opcode ∈ opcodes, opcode.PushProgramBelow children.length) :
    ∃ after, serializeOwn before number opcodes children = some after ∧
      Grown before after 0 (opcodes.length + 1) (opcodesDataSize opcodes) (· = number) ∧
      (∀ position, Named before position → Named after position) ∧
      after.programs[number]? = some ⟨number, opcodes.length + 1, before.opcodeCount⟩ ∧
      (after.slice ⟨number, opcodes.length + 1, before.opcodeCount⟩).map ModuleOpcode.erase =
        opcodes.map (OpcodeOf.globalize children) ++ [opcodeCtor .ret] := by
  let opened := setEntry before number fun found =>
    { found with opcodeCount := opcodes.length, opcodeOffset := before.opcodeCount }
  have openedNamed : ∀ position, Named before position → Named opened position :=
    fun position present => named_setEntry present _ fun _ => rfl
  have table : TableNamed opened children :=
    fun position member => openedNamed position (namedChildren position member)
  obtain ⟨written, success, same, within⟩ := serializeOpcodes_spec table opcodes below
  have tableAfter : TableNamed
      (pushOpcodes (grow opened (opcodesDataSize opcodes)) written) children := table
  obtain ⟨last, successLast, sameLast, withinLast⟩ :=
    serializeOpcode_spec tableAfter (opcodeCtor .ret) (fun isPush => by cases isPush)
  have lastSize : opcodeDataSize (opcodeCtor .ret) = 0 := rfl
  rw [lastSize, grow_zero] at successLast
  rw [lastSize] at withinLast
  have count : written.length = opcodes.length := by simpa using congrArg List.length same
  have programs : (setEntry (pushOpcode (pushOpcodes (grow opened (opcodesDataSize opcodes)) written)
      last) number fun found => { found with opcodeCount := found.opcodeCount + 1 }).programs =
      (before.programs.modify number fun found =>
        { found with opcodeCount := opcodes.length, opcodeOffset := before.opcodeCount }).modify
          number fun found => { found with opcodeCount := found.opcodeCount + 1 } := rfl
  refine ⟨_, by rw [serializeOwn, success, Option.bind_some, successLast, Option.map_some],
    ⟨?_, ?_, ?_, written ++ [last], ?_, ?_, ?_⟩, ?_, ?_, ?_⟩
  · simp [setEntry, pushOpcode, pushOpcodes, grow, opened, count, Nat.add_assoc]
  · rw [programs]
    simp
  · intro position bound untouched
    rw [programs]
    simp [Ne.symm untouched]
  · simp [setEntry, pushOpcode, pushOpcodes, grow, opened]
  · simp [count]
  · intro opcode member
    rcases List.mem_append.mp member with early | late
    · refine (within opcode early).widen (Nat.le_refl _) ?_
      simp [dataEnd, pushOpcodes, pushOpcode, setEntry, grow, opened]
      omega
    · rw [List.mem_singleton.mp late]
      refine withinLast.widen ?_ ?_ <;>
        simp [dataEnd, pushOpcodes, pushOpcode, setEntry, grow, opened]
  · intro position present
    exact named_setEntry (openedNamed position present) _ fun _ => rfl
  · obtain ⟨entry, present, guid⟩ := named
    rw [programs]
    simp [present, guid]
  · have opcodesAfter : before.opcodes.length = before.opcodeCount := counted.2
    have own : Module.slice (setEntry (pushOpcode (pushOpcodes (grow opened
        (opcodesDataSize opcodes)) written) last) number fun found =>
          { found with opcodeCount := found.opcodeCount + 1 })
        ⟨number, opcodes.length + 1, before.opcodeCount⟩ = written ++ [last] := by
      simp only [Module.slice, setEntry, pushOpcode, pushOpcodes, grow, opened, List.append_assoc]
      rw [← opcodesAfter, List.drop_left, List.take_of_length_le (by simp [count])]
    rw [own, List.map_append, same, List.map_singleton, sameLast]
    rfl

theorem serializeShallow_grown (module : Module) (count : Nat) :
    Grown module (serializeShallow module count).2 count 0 0 (fun _ => False) := by
  rw [serializeShallow_eq]
  refine ⟨rfl, by simp, ?_, [], by simp⟩
  intro position bound _
  exact List.getElem?_append_left bound

theorem Grown.named (grown : Grown before after programs opcodes data touched)
    (named : Named before position) (untouched : ¬ touched position) : Named after position := by
  obtain ⟨entry, present, guid⟩ := named
  exact ⟨entry, by rw [grown.keep position (Named.bound ⟨entry, present, guid⟩) untouched, present],
    guid⟩

/-- The tables place a node once its own entry and all its children's trees are placed. -/
theorem Placed.node {program : Program}
    (entry : module.programs[number]? = some ⟨number, program.opcodes.length + 1, offset⟩)
    (code : (module.slice ⟨number, program.opcodes.length + 1, offset⟩).map ModuleOpcode.erase =
      program.code (List.range' next program.children.length))
    (children : ∀ (index : Nat) child, program.children[index]? = some child →
      Placed module child (next + index) (program.nextGuid next index)
        (program.childOffset offset index)) :
    Placed module program number next offset := by
  constructor
  · intro path node found
    cases path with
    | nil =>
      cases found
      exact entry
    | cons index rest =>
      rw [Program.at?_cons] at found
      obtain ⟨child, present, below⟩ := Option.bind_eq_some_iff.mp found
      rw [Program.guidAt_cons present, Program.offsetAt_cons present]
      exact (children index child present).entry rest node below
  · intro path node found
    cases path with
    | nil =>
      cases found
      rw [Program.tableAt_nil]
      exact code
    | cons index rest =>
      rw [Program.at?_cons] at found
      obtain ⟨child, present, below⟩ := Option.bind_eq_some_iff.mp found
      rw [Program.guidAt_cons present, Program.offsetAt_cons present, Program.tableAt_cons present]
      exact (children index child present).code rest node below

theorem serializeProgram2_spec (program : Program) (before : Module) (number : Nat)
    (counted : Counted before) (named : Named before number)
    (bounded : program.PushProgramsBelow) :
    ∃ after, serializeProgram2 before number program = some after ∧
      Written before program number after := by
  induction program using Program.treeInduction generalizing before number with
  | node program ih =>
    obtain ⟨guid, flags, resultFlags, blockParams, opcodes, children, decorators⟩ := program
    have shallow := serializeShallow_grown before children.length
    have shallowCounted := shallow.counted counted
    have shallowPositions : (serializeShallow before children.length).1 =
        List.range' before.programCount children.length := by rw [serializeShallow_eq]
    have shallowNamed := serializeShallow_named counted children.length
    obtain ⟨middle, success, own, keepsNamed, entry, code⟩ := serializeOwn_spec opcodes
      (List.range' before.programCount children.length) shallowCounted
      (shallow.named named not_false) (by
        intro position member
        obtain ⟨index, bound, rfl⟩ := List.mem_range'.mp member
        exact shallowNamed _ (by omega) (by omega))
      (by rw [List.length_range']; exact bounded [] _ rfl)
    rw [shallow.opcodeCount, Nat.add_zero] at entry code
    obtain ⟨after, successChildren, all⟩ := serializeChildren_spec children ih middle
      before.programCount (own.counted shallowCounted)
      (fun position low high => keepsNamed position (shallowNamed position low high))
      (by
        intro child member
        obtain ⟨index, present⟩ := List.mem_iff_getElem?.mp member
        exact bounded.child present)
    have numberBound : number < before.programCount := counted.1 ▸ named.bound
    have middleCount : middle.programCount = before.programCount + children.length := by
      rw [own.programCount, shallow.programCount, Nat.add_zero]
    have middleOpcodes : middle.opcodeCount = before.opcodeCount + (opcodes.length + 1) := by
      rw [own.opcodeCount, shallow.opcodeCount, Nat.add_zero]
    refine ⟨after, ?_, ?_, ?_⟩
    · rw [serializeProgram2]
      change ((serializeOwn (serializeShallow before children.length).2 number opcodes
        (serializeShallow before children.length).1).bind fun module =>
          serializeProgram2.go module (serializeShallow before children.length).1 children) = _
      rw [shallowPositions, success, Option.bind_some]
      exact successChildren
    · have onlyOwn : ∀ position < before.programs.length,
          ((False ∨ position = number) ∨ before.programCount ≤ position ∧
            position < before.programCount + children.length) → position = number := by
        intro position bound hit
        have := counted.1
        rcases hit with (hit | hit) | hit
        · exact hit.elim
        · exact hit
        · omega
      have grown := ((shallow.trans own).trans all.grown).weaken onlyOwn
      rw [Program.descendants_eq, Program.opcodeTotal_eq, dataTotal_eq]
      simpa only [Program.children, Program.opcodes, Nat.add_zero, Nat.zero_add] using grown
    · obtain ⟨new, extended, -, -⟩ := all.grown.written
      refine Placed.node ?_ ?_ ?_
      · have inside : number < middle.programs.length := by
          rw [own.programsLength, shallow.programsLength]
          have := counted.1
          omega
        rw [all.grown.keep number inside (by omega)]
        exact entry
      · refine (congrArg (List.map ModuleOpcode.erase) (slice_extend extended ?_)).trans code
        have := own.opcodesLength
        rw [shallow.opcodesLength, counted.2] at this
        simp only [Program.opcodes]
        omega
      · intro index child present
        have placed := all.placed index child present
        rw [middleCount, middleOpcodes] at placed
        exact placed

theorem calculateSizeOpcode_eq (module : Module) (opcode : Opcode) :
    calculateSizeOpcode module opcode =
      (sizeofOpcode + opcodeDataSize opcode,
        { module with opcodeCount := module.opcodeCount + 1 }) := by
  simp [calculateSizeOpcode, opcodeDataSize, Nat.add_assoc]

theorem calculateSizeOpcodes_eq (module : Module) (size : Nat) (opcodes : List Opcode) :
    calculateSizeOpcodes module size opcodes =
      (size + (sizeofOpcode * opcodes.length + opcodesDataSize opcodes),
        { module with opcodeCount := module.opcodeCount + opcodes.length }) := by
  induction opcodes generalizing module size with
  | nil => rfl
  | cons opcode rest ih =>
    rw [calculateSizeOpcodes, calculateSizeOpcode_eq]
    simp only [ih]
    simp only [opcodesDataSize, List.map_cons, List.sum_cons, List.length_cons, Prod.mk.injEq]
    refine ⟨by rw [Nat.mul_add]; omega, by simp [Nat.add_assoc, Nat.add_comm 1]⟩

/-- The size measured for a tree, table entries and opcodes included. -/
def measuredSize (program : Program) : Nat :=
  sizeofTableEntry * (program.descendants + 1) + sizeofOpcode * program.opcodeTotal +
    dataTotal program

theorem calculateSizeProgram_eq (module : Module) (program : Program) :
    calculateSizeProgram module program =
      (measuredSize program,
        { module with
          programCount := module.programCount + (program.descendants + 1)
          opcodeCount := module.opcodeCount + program.opcodeTotal }) := by
  induction program using Program.treeInduction generalizing module with
  | node program ih =>
    obtain ⟨guid, flags, resultFlags, blockParams, opcodes, children, decorators⟩ := program
    have loop : ∀ (children : List Program) (module : Module) (size : Nat),
        (∀ child ∈ children, ∀ module, calculateSizeProgram module child =
          (measuredSize child, { module with
            programCount := module.programCount + (child.descendants + 1)
            opcodeCount := module.opcodeCount + child.opcodeTotal })) →
        calculateSizeProgram.go module size children =
          (size + (children.map measuredSize).sum, { module with
            programCount := module.programCount +
              (children.length + (children.map Program.descendants).sum)
            opcodeCount := module.opcodeCount + (children.map Program.opcodeTotal).sum }) := by
      intro children
      induction children with
      | nil => intro module size _; rfl
      | cons child rest induct =>
        intro module size measured
        rw [calculateSizeProgram.go, measured child (by simp)]
        simp only [induct _ _ (fun later member => measured later (by simp [member]))]
        simp only [List.map_cons, List.sum_cons, List.length_cons, Prod.mk.injEq, Module.mk.injEq,
          true_and, and_true]
        omega
    have sizes : (children.map measuredSize).sum =
        sizeofTableEntry * (children.length + (children.map Program.descendants).sum) +
          sizeofOpcode * (children.map Program.opcodeTotal).sum + (children.map dataTotal).sum := by
      clear ih loop
      induction children with
      | nil => rfl
      | cons child rest induct =>
        simp only [List.map_cons, List.sum_cons, List.length_cons, induct, measuredSize]
        ring
    rw [calculateSizeProgram]
    simp only [loop children _ _ ih, calculateSizeOpcodes_eq, calculateSizeOpcode_eq]
    have returnSize : opcodeDataSize (opcodeCtor .ret) = 0 := rfl
    simp only [measuredSize, Program.descendants_eq (Program.mk ..),
      Program.opcodeTotal_eq (Program.mk ..), dataTotal_eq (Program.mk ..), Program.children,
      Program.opcodes, sizes, returnSize, Prod.mk.injEq, Module.mk.injEq, true_and, and_true]
    refine ⟨by ring, by omega, by omega⟩

theorem allocate_eq (now : Int) (addr : Nat) (program : Program) :
    allocate now addr program =
      { hash := 0, version := handlebarsVersion, addr := addr
        size := sizeofModule + measuredSize program
        ts := now, flags := program.flags, programCount := 0
        programsAddr := addr + sizeofModule, programs := [], opcodeCount := 0
        opcodesAddr := addr + sizeofModule + sizeofTableEntry * (program.descendants + 1)
        opcodes := []
        dataOffset := sizeofTableEntry * (program.descendants + 1) +
          sizeofOpcode * program.opcodeTotal } := by
  simp only [allocate, calculateSizeProgram_eq, Nat.zero_add]

/-- What a module says about the program tree it was serialized from, when the
node at each path got the guid `guid path`. -/
structure SerializedFrom (module : Module) (program : Program) (guid : Program.Path → Nat) :
    Prop where
  root : guid [] = 0
  distinct : ∀ left right leftNode rightNode, program.at? left = some leftNode →
    program.at? right = some rightNode → guid left = guid right → left = right
  exhaustive : ∀ number, number < module.programCount ↔
    ∃ path node, program.at? path = some node ∧ guid path = number
  programsLength : module.programs.length = module.programCount
  numbered : ∀ number < module.programCount,
    ∃ entry, module.programs[number]? = some entry ∧ entry.guid = number
  opcodesLength : module.opcodes.length = module.opcodeCount
  slicesInside : ∀ entry ∈ module.programs,
    entry.opcodeOffset + entry.opcodeCount ≤ module.opcodeCount
  slicesPartition : ∀ position < module.opcodeCount, ∃! number : Nat, ∃ entry : TableEntry,
    module.programs[number]? = some entry ∧ entry.opcodeOffset ≤ position ∧
      position < entry.opcodeOffset + entry.opcodeCount
  code : ∀ path node, program.at? path = some node →
    ∃ entry, module.programs[guid path]? = some entry ∧
      entry.opcodeCount = node.opcodes.length + 1 ∧
      (module.slice entry).map ModuleOpcode.erase =
        node.code ((List.range node.children.length).map fun index => guid (path ++ [index]))
  size : sizeofModule + module.dataOffset = module.size
  inside : ∀ opcode ∈ module.opcodes,
    OpcodeWithin (module.opcodesAddr + sizeofOpcode * module.opcodeCount)
      (module.addr + module.size) opcode

/-- A table that places the whole tree partitions its opcodes. -/
theorem Placed.partition (placed : Placed module program 0 1 0)
    (programs : module.programs.length = program.descendants + 1) (position : Nat)
    (bound : position < program.opcodeTotal) :
    ∃! number : Nat, ∃ entry : TableEntry, module.programs[number]? = some entry ∧
      entry.opcodeOffset ≤ position ∧ position < entry.opcodeOffset + entry.opcodeCount := by
  obtain ⟨path, node, found, low, high⟩ :=
    Program.InSlice.cover program 0 position (Nat.zero_le _) (by omega)
  refine ⟨program.guidAt 0 1 path, ⟨_, placed.entry path node found, low, high⟩, ?_⟩
  rintro number ⟨entry, present, otherLow, otherHigh⟩
  have inTable := (List.getElem?_eq_some_iff.mp present).1
  obtain ⟨other, otherNode, otherFound, same⟩ :
      ∃ other otherNode, program.at? other = some otherNode ∧ program.guidAt 0 1 other = number := by
    by_cases root : number = 0
    · exact ⟨[], program, rfl, root.symm⟩
    · obtain ⟨other, otherNode, -, otherFound, same⟩ :=
        program.guidAt_surjective 0 1 number (by omega) (by omega)
      exact ⟨other, otherNode, otherFound, same⟩
  subst same
  rw [placed.entry other otherNode otherFound, Option.some.injEq] at present
  subst present
  have samePath : other = path :=
    Program.InSlice.unique ⟨otherNode, otherFound, otherLow, otherHigh⟩ ⟨node, found, low, high⟩
  rw [samePath]

theorem guidAt_exhaustive (program : Program) (number : Nat) :
    number < program.descendants + 1 ↔
      ∃ path node, program.at? path = some node ∧ program.guidAt 0 1 path = number := by
  constructor
  · intro bound
    by_cases root : number = 0
    · exact ⟨[], program, rfl, root.symm⟩
    · obtain ⟨path, node, -, found, same⟩ :=
        program.guidAt_surjective 0 1 number (by omega) (by omega)
      exact ⟨path, node, found, same⟩
  · rintro ⟨path, node, found, rfl⟩
    by_cases root : path = []
    · subst root
      rw [Program.guidAt_nil]
      omega
    · have range := Program.guidAt_bounds program 0 1 path root found
      omega

/-- Serialization lays a program tree out in one module: one entry and one slice
per node, children named by their guids, in exactly the room that was measured. -/
theorem program_serialize_correct (now : Int) (addr : Nat) (program : Program)
    (bounded : program.PushProgramsBelow) :
    ∃ module guid, programSerialize now addr program = some module ∧
      SerializedFrom module program guid := by
  rw [programSerialize, allocate_eq, serializeProgram, serializeProgramShallow]
  obtain ⟨after, success, grown, placed⟩ := serializeProgram2_spec program
    { hash := 0, version := handlebarsVersion, addr := addr
      size := sizeofModule + measuredSize program
      ts := now, flags := program.flags, programCount := 1
      programsAddr := addr + sizeofModule, programs := [⟨0, 0, 0⟩], opcodeCount := 0
      opcodesAddr := addr + sizeofModule + sizeofTableEntry * (program.descendants + 1)
      opcodes := []
      dataOffset := sizeofTableEntry * (program.descendants + 1) +
        sizeofOpcode * program.opcodeTotal } 0
    ⟨rfl, rfl⟩ ⟨⟨0, 0, 0⟩, rfl, rfl⟩ bounded
  refine ⟨after, program.guidAt 0 1, success, ?_⟩
  have programCount : after.programCount = program.descendants + 1 := by
    rw [grown.programCount, Nat.add_comm]
  have programsLength : after.programs.length = program.descendants + 1 := by
    rw [grown.programsLength, Nat.add_comm, List.length_singleton]
  have opcodeCount : after.opcodeCount = program.opcodeTotal := by
    rw [grown.opcodeCount, Nat.zero_add]
  have opcodesLength : after.opcodes.length = program.opcodeTotal := by
    rw [grown.opcodesLength]
    exact Nat.zero_add _
  have size : sizeofModule + after.dataOffset = after.size := by
    rw [grown.frame]
    simp only [measuredSize]
  refine ⟨rfl, ?_, ?_, ?_, ?_, ?_, ?_, ?_, ?_, size, ?_⟩
  · intro left right leftNode rightNode foundLeft foundRight same
    exact Program.guidAt_injective program 0 1 left right Nat.zero_lt_one foundLeft foundRight same
  · intro number
    rw [programCount]
    exact guidAt_exhaustive program number
  · rw [programsLength, programCount]
  · intro number inside
    rw [programCount] at inside
    obtain ⟨path, node, found, rfl⟩ := (guidAt_exhaustive program number).mp inside
    exact ⟨_, placed.entry path node found, rfl⟩
  · rw [opcodesLength, opcodeCount]
  · intro entry member
    obtain ⟨number, present⟩ := List.mem_iff_getElem?.mp member
    have inTable := (List.getElem?_eq_some_iff.mp present).1
    obtain ⟨path, node, found, rfl⟩ := (guidAt_exhaustive program number).mp (by omega)
    rw [placed.entry path node found, Option.some.injEq] at present
    subst present
    have stop := Program.offsetAt_stop 0 found
    rw [opcodeCount]
    simpa using stop
  · intro position inside
    exact placed.partition programsLength position (by omega)
  · intro path node found
    exact ⟨_, placed.entry path node found, rfl, placed.code path node found⟩
  · intro opcode member
    obtain ⟨new, extended, -, within⟩ := grown.written
    rw [extended] at member
    refine (within opcode member).widen ?_ ?_
    · rw [grown.frame]
      simp [dataEnd, Nat.add_assoc]
    · rw [dataEnd, ← size]
      omega

/-- A block with a main program and no inverse: `push_program 0`, `push_program`. -/
def blockProgram : Program :=
  .mk 0 0 0 0
    [{ opcodeCtor .pushProgram with op1 := .long 0 }, opcodeCtor .pushProgram]
    [.mk 0 0 0 0 [{ opcodeCtor .appendContent with op1 := .string (bytes "x") }] [] []] []

theorem blockProgram_below : blockProgram.PushProgramsBelow := by
  refine .node ?_ ?_
  · intro opcode member _
    simp only [blockProgram, Program.opcodes, List.mem_cons, List.not_mem_nil, or_false] at member
    rcases member with rfl | rfl
    · exact ⟨rfl, .inr ⟨0, by decide, rfl⟩⟩
    · exact ⟨rfl, .inl ⟨false, rfl⟩⟩
  · intro child member
    rw [List.mem_singleton.mp member]
    refine .node ?_ (fun _ none => nomatch none)
    intro opcode inside isPush
    rw [List.mem_singleton.mp inside] at isPush
    cases isPush

theorem program_serialize_correct_block : ∃ module guid,
    programSerialize 0 4096 blockProgram = some module ∧ SerializedFrom module blockProgram guid :=
  program_serialize_correct 0 4096 blockProgram blockProgram_below

end Serializer

end HandlebarsC
