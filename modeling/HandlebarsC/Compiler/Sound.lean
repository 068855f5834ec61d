import HandlebarsC.Compiler.Model
import HandlebarsC.Compiler.Shape
import HandlebarsC.Serializer.Writing

/-!
What holds of a compiler whenever it stops: the code of every program of its tree
has a shape, names only children that are there, and contains the lookups of the
paths that were accepted.
-/

namespace HandlebarsC

open Effect

namespace Program

/-- The opcodes and the number of children of the node at a path. -/
def codeAt (program : Program) (path : Path) : Option (List Opcode × Nat) :=
  (program.at? path).map fun node => (node.opcodes, node.children.length)

end Program

/-- The opcodes that read `last_context`. -/
def OpcodeType.readsContext : OpcodeType → Bool
  | .pushContext | .lookupOnContext => true
  | _ => false

/-- The two opcodes of an accepted path are in the code. -/
def PathUse.At (platform : Platform) (use : PathUse) (code : List Opcode) : Prop :=
  (∃ loc, code[use.index]? = some ((Compiler.pathContext use.path).place loc)) ∧
  ∃ loc, code[use.index + 1]? = some ((Compiler.pathLookup use.path
    (Compiler.pathBlockParam platform use.scopes use.path)).place loc)

/-- The block parameters in scope are those of the program and of the programs around
it, the innermost first, and then those `outer` to the whole tree. -/
structure PathUse.Scoped (use : PathUse) (outer : List BlockParamPair)
    (declared : List (Program.Path × BlockParamPair)) : Prop where
  own : ∀ depth ≤ use.program.length, ∃ pair, use.scopes[depth]? = some pair ∧
    (use.program.take (use.program.length - depth), pair) ∈ declared
  rest : use.scopes.drop (use.program.length + 1) = outer

theorem OpcodeOf.PushProgramBelow.mono {opcode : Opcode} (below : opcode.PushProgramBelow count)
    (more : count ≤ wider) : opcode.PushProgramBelow wider := by
  intro isPush
  obtain ⟨unmarked, absent | ⟨index, bound, present⟩⟩ := below isPush
  · exact ⟨unmarked, .inl absent⟩
  · exact ⟨unmarked, .inr ⟨index, Nat.lt_of_lt_of_le bound more, present⟩⟩

theorem PathUse.At.append {use : PathUse} (atCode : use.At platform code) (new : List Opcode) :
    use.At platform (code ++ new) := by
  obtain ⟨⟨first, present⟩, second, presentNext⟩ := atCode
  have bound := (List.getElem?_eq_some_iff.mp presentNext).1
  refine ⟨⟨first, ?_⟩, second, ?_⟩
  · rw [List.getElem?_append_left (Nat.lt_of_succ_lt bound)]
    exact present
  · rw [List.getElem?_append_left bound]
    exact presentNext

/-- Both opcodes of a path at the end of the code. -/
theorem PathUse.at_end (use : PathUse) (last : use.index = code.length) (first second : LocInfo) :
    use.At platform (code ++ [(Compiler.pathContext use.path).place first] ++
      [(Compiler.pathLookup use.path
        (Compiler.pathBlockParam platform use.scopes use.path)).place second]) := by
  constructor
  · refine ⟨first, ?_⟩
    rw [last, List.append_assoc, List.getElem?_append_right (Nat.le_refl _), Nat.sub_self]
    rfl
  · refine ⟨second, ?_⟩
    have length : use.index + 1 =
        (code ++ [(Compiler.pathContext use.path).place first]).length := by
      rw [last, List.length_append]
      rfl
    rw [length]
    exact List.getElem?_concat_length

/-- The scopes of a path in the program that is being compiled. -/
theorem PathUse.Scoped.here {use : PathUse} {pair : BlockParamPair} (owner : use.program = [])
    (scopes : use.scopes = pair :: outer) (around : ([], pair) ∈ declared) :
    use.Scoped outer declared := by
  constructor
  · rw [owner, scopes]
    intro depth bound
    rw [Nat.le_zero.mp bound]
    exact ⟨pair, rfl, around⟩
  · rw [owner, scopes]
    rfl

/-- Scopes seen from the program around the one they were recorded in. -/
theorem PathUse.Scoped.outward {use : PathUse} {pair : BlockParamPair} {index : Nat}
    (inScope : use.Scoped (pair :: outer) subDeclared)
    (inherited : ∀ entry ∈ subDeclared, (index :: entry.1, entry.2) ∈ declared)
    (around : ([], pair) ∈ declared) :
    PathUse.Scoped { use with program := index :: use.program } outer declared := by
  constructor
  · intro depth bound
    dsimp only [List.length_cons] at bound ⊢
    by_cases own : depth ≤ use.program.length
    · obtain ⟨inner, present, entry⟩ := inScope.own depth own
      refine ⟨inner, present, ?_⟩
      rw [show use.program.length + 1 - depth = use.program.length - depth + 1 by omega,
        List.take_succ_cons]
      exact inherited _ entry
    · have last : depth = use.program.length + 1 := by omega
      refine ⟨pair, ?_, ?_⟩
      · have head := congrArg List.head? inScope.rest
        rw [List.head?_drop] at head
        rw [last, head]
        rfl
      · rw [last, Nat.sub_self]
        exact around
  · have rest := congrArg List.tail inScope.rest
    rw [List.tail_drop] at rest
    exact rest

namespace Compiler

variable {platform : Platform} {outer : List BlockParamPair}

def codeAt (compiler : Compiler) : Program.Path → Option (List Opcode × Nat)
  | [] => some (compiler.opcodes, compiler.children.length)
  | index :: rest => compiler.children[index]?.bind (·.codeAt rest)

theorem codeAt_program (compiler : Compiler) (path : Program.Path) :
    compiler.program.codeAt path = compiler.codeAt path := by
  cases path with
  | nil => rfl
  | cons index rest =>
    rw [Program.codeAt, Program.at?_cons, codeAt]
    change Option.map _ (compiler.children[index]?.bind _) = _
    cases compiler.children[index]? <;> rfl

structure Sound (platform : Platform) (outer : List BlockParamPair) (compiler : Compiler) :
    Prop where
  counted : compiler.guid = compiler.children.length
  shaped : ∀ path code count, compiler.codeAt path = some (code, count) →
    ∃ shape, Shape.run .start code = some shape
  below : ∀ path code count, compiler.codeAt path = some (code, count) →
    ∀ opcode ∈ code, opcode.PushProgramBelow count
  traced : ∀ path code count, compiler.codeAt path = some (code, count) →
    ∀ index opcode, code[index]? = some opcode → opcode.type.readsContext = true →
      ∃ use ∈ compiler.uses, use.program = path ∧ use.index + 1 = index
  used : ∀ use ∈ compiler.uses, ∃ code count,
    compiler.codeAt use.program = some (code, count) ∧ use.At platform code
  inScope : ∀ use ∈ compiler.uses, use.Scoped outer compiler.declared

/-- A compiler that has emitted nothing is sound. -/
theorem Sound.fresh (guid : compiler.guid = 0) (opcodes : compiler.opcodes = [])
    (children : compiler.children = []) (uses : compiler.uses = []) :
    Sound platform outer compiler := by
  have root : ∀ path code count, compiler.codeAt path = some (code, count) → code = [] := by
    intro path code count present
    cases path with
    | nil =>
      rw [codeAt, opcodes] at present
      cases present
      rfl
    | cons index rest =>
      rw [codeAt, children] at present
      cases present
  refine ⟨by rw [guid, children]; rfl, ?_, ?_, ?_, ?_, ?_⟩
  · intro path code count present
    rw [root path code count present]
    exact ⟨_, rfl⟩
  · intro path code count present opcode member
    rw [root path code count present] at member
    cases member
  · intro path code count present index opcode inside
    rw [root path code count present] at inside
    cases inside
  · rw [uses]
    exact fun _ none => nomatch none
  · rw [uses]
    exact fun _ none => nomatch none

/-- New opcodes at the end, with the uses they belong to. -/
theorem Sound.extend (new : List Opcode) (newUses : List PathUse)
    (sound : Sound platform outer before) (guid : after.guid = before.guid)
    (children : after.children = before.children) (declared : after.declared = before.declared)
    (opcodes : after.opcodes = before.opcodes ++ new) (uses : after.uses = before.uses ++ newUses)
    (shaped : ∃ shape, Shape.run .start after.opcodes = some shape)
    (below : ∀ opcode ∈ new, opcode.PushProgramBelow before.children.length)
    (traced : ∀ index opcode, new[index]? = some opcode → opcode.type.readsContext = true →
      ∃ use ∈ newUses, use.program = [] ∧ use.index + 1 = before.opcodes.length + index)
    (used : ∀ use ∈ newUses, use.program = [] ∧ use.At platform after.opcodes)
    (inScope : ∀ use ∈ newUses, use.Scoped outer before.declared) : Sound platform outer after := by
  have inside : ∀ index rest, after.codeAt (index :: rest) = before.codeAt (index :: rest) := by
    intro index rest
    rw [codeAt, codeAt, children]
  have root : ∀ code count, after.codeAt [] = some (code, count) →
      code = before.opcodes ++ new ∧ count = before.children.length := by
    intro code count present
    rw [codeAt, opcodes, children] at present
    cases present
    exact ⟨rfl, rfl⟩
  refine ⟨by rw [guid, children, sound.counted], ?_, ?_, ?_, ?_, ?_⟩
  · intro path code count present
    cases path with
    | nil =>
      rw [(root code count present).1, ← opcodes]
      exact shaped
    | cons index rest =>
      rw [inside] at present
      exact sound.shaped _ _ _ present
  · intro path code count present opcode member
    cases path with
    | nil =>
      obtain ⟨rfl, rfl⟩ := root code count present
      rcases List.mem_append.mp member with old | added
      · exact sound.below [] _ _ rfl opcode old
      · exact below opcode added
    | cons index rest =>
      rw [inside] at present
      exact sound.below _ _ _ present opcode member
  · intro path code count present index opcode found reads
    rw [uses]
    cases path with
    | nil =>
      obtain ⟨rfl, rfl⟩ := root code count present
      by_cases early : index < before.opcodes.length
      · rw [List.getElem?_append_left early] at found
        obtain ⟨use, member, owner, place⟩ := sound.traced [] _ _ rfl index opcode found reads
        exact ⟨use, List.mem_append_left _ member, owner, place⟩
      · rw [List.getElem?_append_right (Nat.le_of_not_lt early)] at found
        obtain ⟨use, member, owner, place⟩ := traced _ opcode found reads
        exact ⟨use, List.mem_append_right _ member, owner, by omega⟩
    | cons child rest =>
      rw [inside] at present
      obtain ⟨use, member, owner, place⟩ := sound.traced _ _ _ present index opcode found reads
      exact ⟨use, List.mem_append_left _ member, owner, place⟩
  · intro use member
    rw [uses] at member
    rcases List.mem_append.mp member with old | added
    · obtain ⟨code, count, present, placed⟩ := sound.used use old
      cases path : use.program with
      | nil =>
        rw [path] at present
        cases present
        refine ⟨_, _, rfl, ?_⟩
        rw [opcodes]
        exact placed.append new
      | cons index rest =>
        rw [path] at present
        exact ⟨code, count, (inside index rest).trans present, placed⟩
    · obtain ⟨owner, placed⟩ := used use added
      rw [owner]
      exact ⟨_, _, rfl, placed⟩
  · intro use member
    rw [uses] at member
    rw [declared]
    rcases List.mem_append.mp member with old | added
    · exact sound.inScope use old
    · exact inScope use added

theorem codeAt_adopt_child (compiler sub : Compiler) (rest : Program.Path) :
    (adopt compiler sub).codeAt (compiler.children.length :: rest) = sub.codeAt rest := by
  rw [codeAt, adopt, List.getElem?_append_right (Nat.le_refl _), Nat.sub_self]
  exact codeAt_program sub rest

theorem codeAt_adopt_other (compiler sub : Compiler) (bound : index < compiler.children.length)
    (rest : Program.Path) :
    (adopt compiler sub).codeAt (index :: rest) = compiler.codeAt (index :: rest) := by
  rw [codeAt, codeAt, adopt, List.getElem?_append_left bound]

theorem codeAt_child_bound {compiler : Compiler}
    (present : compiler.codeAt (index :: rest) = some entry) :
    index < compiler.children.length := by
  rw [codeAt] at present
  obtain ⟨child, found, -⟩ := Option.bind_eq_some_iff.mp present
  exact (List.getElem?_eq_some_iff.mp found).1

/-- Where the code of a compiler comes from that has just adopted a child. -/
theorem codeAt_adopt {compiler sub : Compiler}
    (present : (adopt compiler sub).codeAt path = some (code, count)) :
    (path = [] ∧ code = compiler.opcodes ∧ count = compiler.children.length + 1) ∨
      compiler.codeAt path = some (code, count) ∨
      ∃ rest, path = compiler.children.length :: rest ∧ sub.codeAt rest = some (code, count) := by
  cases path with
  | nil =>
    left
    rw [codeAt, adopt] at present
    cases present
    exact ⟨rfl, rfl, by rw [List.length_append]; rfl⟩
  | cons index rest =>
    right
    have bound := codeAt_child_bound present
    rw [adopt, List.length_append, List.length_singleton] at bound
    rcases Nat.lt_succ_iff_lt_or_eq.mp bound with earlier | rfl
    · left
      rw [← codeAt_adopt_other compiler sub earlier]
      exact present
    · right
      rw [codeAt_adopt_child] at present
      exact ⟨rest, rfl, present⟩

/-- The program of a sound subcompiler becomes a sound child. -/
theorem Sound.adopt {pair : BlockParamPair} (sound : Sound platform outer compiler)
    (around : ([], pair) ∈ compiler.declared) (child : Sound platform (pair :: outer) sub) :
    Sound platform outer (adopt compiler sub) := by
  refine ⟨?_, ?_, ?_, ?_, ?_, ?_⟩
  · rw [Compiler.adopt, sound.counted, List.length_append]
    rfl
  · intro path code count present
    rcases codeAt_adopt present with ⟨-, rfl, -⟩ | old | ⟨rest, -, inside⟩
    · exact sound.shaped [] _ _ rfl
    · exact sound.shaped _ _ _ old
    · exact child.shaped _ _ _ inside
  · intro path code count present opcode member
    rcases codeAt_adopt present with ⟨-, rfl, rfl⟩ | old | ⟨rest, -, inside⟩
    · exact (sound.below [] _ _ rfl opcode member).mono (Nat.le_succ _)
    · exact sound.below _ _ _ old opcode member
    · exact child.below _ _ _ inside opcode member
  · intro path code count present index opcode found reads
    have kept : (∃ use ∈ compiler.uses, use.program = path ∧ use.index + 1 = index) →
        ∃ use ∈ (Compiler.adopt compiler sub).uses, use.program = path ∧ use.index + 1 = index := by
      rintro ⟨use, member, place⟩
      exact ⟨use, List.mem_append_left _ member, place⟩
    rcases codeAt_adopt present with ⟨rfl, rfl, -⟩ | old | ⟨rest, rfl, inside⟩
    · exact kept (sound.traced [] _ _ rfl index opcode found reads)
    · exact kept (sound.traced _ _ _ old index opcode found reads)
    · obtain ⟨use, member, rfl, place⟩ := child.traced _ _ _ inside index opcode found reads
      refine ⟨_, List.mem_append_right _ (List.mem_map_of_mem member), ?_, place⟩
      rw [sound.counted]
  · intro use member
    rcases List.mem_append.mp member with old | added
    · obtain ⟨code, count, present, placed⟩ := sound.used use old
      cases path : use.program with
      | nil =>
        rw [path] at present
        cases present
        exact ⟨_, _, rfl, placed⟩
      | cons index rest =>
        rw [path] at present
        exact ⟨code, count,
          (codeAt_adopt_other compiler sub (codeAt_child_bound present) rest).trans present, placed⟩
    · obtain ⟨inner, inside, rfl⟩ := List.mem_map.mp added
      obtain ⟨code, count, present, placed⟩ := child.used inner inside
      refine ⟨code, count, ?_, placed⟩
      dsimp only
      rw [sound.counted, codeAt_adopt_child]
      exact present
  · intro use member
    rcases List.mem_append.mp member with old | added
    · obtain ⟨own, rest⟩ := sound.inScope use old
      refine ⟨?_, rest⟩
      intro depth bound
      obtain ⟨inner, present, entry⟩ := own depth bound
      exact ⟨inner, present, List.mem_append_left _ entry⟩
    · obtain ⟨inner, inside, rfl⟩ := List.mem_map.mp added
      refine (child.inScope inner inside).outward ?_ (List.mem_append_left _ around)
      intro entry declared
      exact List.mem_append_right _ (List.mem_map_of_mem declared)

end Compiler

end HandlebarsC
