import HandlebarsC.Serializer.Correct

/-!
The strings of a program tree in the order in which they are serialized, by number. A module
has as many as the tree it was made of.
-/

namespace HandlebarsC

namespace Operand

/-- How many strings `serialize_operand` copies. -/
def stringCount : Operand → Nat
  | .string _ => 1
  | .array strings => strings.length
  | _ => 0

end Operand

namespace OpcodeOf

def stringCount (opcode : Opcode) : Nat :=
  opcode.op1.stringCount + opcode.op2.stringCount + opcode.op3.stringCount +
    opcode.op4.stringCount

end OpcodeOf

namespace Program

/-- Strings of the whole tree. -/
def stringTotal : Program → Nat :=
  total (fun node => (node.opcodes.map OpcodeOf.stringCount).sum)

theorem stringTotal_eq (program : Program) :
    program.stringTotal = (program.opcodes.map OpcodeOf.stringCount).sum +
      (program.children.map stringTotal).sum :=
  total_eq _ program

end Program

/-- Strings of the opcodes of a module. -/
def Module.stringTotal (module : Module) : Nat :=
  (module.opcodes.map fun opcode => opcode.erase.stringCount).sum

namespace Serializer

/-- Marking a `push_program` operand leaves the strings of the opcode alone. -/
theorem patchPushProgram_stringCount {opcode patched : ModuleOpcode}
    (success : patchPushProgram module table opcode = some patched) :
    patched.erase.stringCount = opcode.erase.stringCount := by
  obtain ⟨type, op1, op2, op3, op4, loc⟩ := opcode
  unfold patchPushProgram at success
  split at success
  · rename_i index _ isLong
    dsimp only at isLong
    subst isLong
    split at success
    · cases success
      rfl
    · obtain ⟨guid, -, marked⟩ := Option.bind_eq_some_iff.mp success
      obtain ⟨flag, set, rfl⟩ := Option.map_eq_some_iff.mp marked
      cases op4 <;> cases set <;> rfl
  · cases success
    rfl

theorem serializeOpcode_stringTotal (success : serializeOpcode module opcode table = some after) :
    after.stringTotal = module.stringTotal + opcode.stringCount := by
  obtain ⟨after1, same1, -⟩ := serializeOperand_spec module opcode.op1
  obtain ⟨after2, same2, -⟩ := serializeOperand_spec
    (grow module (calculateSizeOperand opcode.op1)) opcode.op2
  obtain ⟨after3, same3, -⟩ := serializeOperand_spec
    (grow (grow module (calculateSizeOperand opcode.op1)) (calculateSizeOperand opcode.op2))
    opcode.op3
  obtain ⟨after4, same4, -⟩ := serializeOperand_spec
    (grow (grow (grow module (calculateSizeOperand opcode.op1)) (calculateSizeOperand opcode.op2))
      (calculateSizeOperand opcode.op3)) opcode.op4
  simp only [serializeOpcode, after1, after2, after3, after4] at success
  obtain ⟨patched, marked, rfl⟩ := Option.map_eq_some_iff.mp success
  have same : patched.erase.stringCount = opcode.stringCount := by
    rw [patchPushProgram_stringCount marked]
    simp only [ModuleOpcode.erase, OpcodeOf.map, OpcodeOf.stringCount, same1, same2, same3, same4]
  simp only [Module.stringTotal, pushOpcode, grow, List.map_append, List.map_singleton,
    List.sum_append, List.sum_singleton, same]

theorem serializeOpcodes_stringTotal (opcodes : List Opcode)
    (success : serializeOpcodes module table opcodes = some after) :
    after.stringTotal = module.stringTotal + (opcodes.map OpcodeOf.stringCount).sum := by
  induction opcodes generalizing module with
  | nil =>
    cases success
    rfl
  | cons opcode rest ih =>
    obtain ⟨middle, first, others⟩ := Option.bind_eq_some_iff.mp success
    rw [ih others, serializeOpcode_stringTotal first, List.map_cons, List.sum_cons, Nat.add_assoc]

theorem serializeOwn_stringTotal
    (success : serializeOwn module entry opcodes children = some after) :
    after.stringTotal = module.stringTotal + (opcodes.map OpcodeOf.stringCount).sum := by
  obtain ⟨middle, own, rest⟩ := Option.bind_eq_some_iff.mp success
  obtain ⟨last, returned, rfl⟩ := Option.map_eq_some_iff.mp rest
  have written := serializeOpcodes_stringTotal opcodes own
  exact (serializeOpcode_stringTotal returned).trans written

theorem serializeProgram2_stringTotal (program : Program)
    (success : serializeProgram2 module entry program = some after) :
    after.stringTotal = module.stringTotal + program.stringTotal := by
  induction program using Program.treeInduction generalizing module entry after with
  | node program ih =>
    obtain ⟨guid, flags, resultFlags, blockParams, opcodes, children, decorators⟩ := program
    have loop : ∀ (rest : List Program) (positions : List Nat) (module after : Module),
        (∀ child ∈ rest, child ∈ children) →
        serializeProgram2.go module positions rest = some after →
        after.stringTotal = module.stringTotal + (rest.map Program.stringTotal).sum := by
      intro rest
      induction rest with
      | nil =>
        intro positions module after _ success
        cases success
        rfl
      | cons child rest induct =>
        intro positions module after inside success
        cases positions with
        | nil => cases success
        | cons position positions =>
          obtain ⟨middle, first, others⟩ := Option.bind_eq_some_iff.mp success
          rw [induct positions middle after
            (fun later member => inside later (List.mem_cons_of_mem _ member)) others,
            ih child (inside child List.mem_cons_self) first, List.map_cons, List.sum_cons,
            Nat.add_assoc]
    obtain ⟨middle, own, below⟩ := Option.bind_eq_some_iff.mp success
    have shallow : (serializeShallow module children.length).2.stringTotal = module.stringTotal := by
      rw [serializeShallow_eq]
      rfl
    rw [loop children _ middle after (fun _ member => member) below, serializeOwn_stringTotal own,
      shallow, Program.stringTotal_eq, Nat.add_assoc]
    rfl

/-- A serialized module has the strings of its tree. -/
theorem programSerialize_stringTotal (now : Int) (addr : Nat) (program : Program)
    (success : programSerialize now addr program = some module) :
    module.stringTotal = program.stringTotal := by
  rw [programSerialize, allocate_eq] at success
  have counted := serializeProgram2_stringTotal program success
  rw [counted]
  exact Nat.zero_add _

end Serializer

end HandlebarsC
