import HandlebarsC.Compiler.Sound

/-!
Rules for procedures that take a sound compiler from code of one shape to code of
another and leave it sound when they fail.
-/

namespace HandlebarsC

open Effect

/-- The opcodes that neither read `last_context` nor name a program. -/
def OpcodeType.isPlain : OpcodeType → Bool
  | .pushContext | .lookupOnContext | .pushProgram => false
  | _ => true

theorem OpcodeType.isPlain_reads {type : OpcodeType} (plain : type.isPlain = true) :
    type.readsContext = false := by
  cases type <;> first | rfl | cases plain

theorem OpcodeType.isPlain_push {type : OpcodeType} (plain : type.isPlain = true) :
    type ≠ .pushProgram := by
  rintro rfl
  cases plain

namespace Compiler

/-- Code that leaves these operands and hashes, or has thrown. -/
def At (slots : List Slot) (hashes : Nat) (code : List Opcode) : Prop :=
  slots.head? ≠ some .void ∧
    (Shape.run .start code = some .dead ∨ Shape.run .start code = some (.live slots hashes))

/-- Code that has thrown. -/
def Dead (code : List Opcode) : Prop := Shape.run .start code = some .dead

/-- Code that an `append` has to follow. -/
def Due (hashes : Nat) (code : List Opcode) : Prop :=
  Dead code ∨ Shape.run .start code = some (.live [.any] hashes) ∨
    Shape.run .start code = some (.live [.void] hashes)

/-- A sound compiler inside a program, with at least so many children. -/
structure Ready (platform : Platform) (outer : List BlockParamPair) (floor : Nat)
    (fits : List Opcode → Prop) (compiler : Compiler) : Prop where
  sound : Sound platform outer compiler
  fits : fits compiler.opcodes
  inside : ∃ pair, compiler.bps = some (pair :: outer) ∧ ([], pair) ∈ compiler.declared
  floor : floor ≤ compiler.children.length

def Moves (platform : Platform) (outer : List BlockParamPair) (floor : Nat) (body : Compile Unit)
    (before after : List Opcode → Prop) : Prop :=
  ∀ compiler, Ready platform outer floor before compiler →
    body.wp (fun _ => Ready platform outer floor after) (Sound platform outer) compiler

/-- Fields that soundness does not look at. -/
theorem Sound.same (sound : Sound platform outer before) (guid : after.guid = before.guid)
    (opcodes : after.opcodes = before.opcodes) (children : after.children = before.children)
    (uses : after.uses = before.uses) (declared : after.declared = before.declared) :
    Sound platform outer after :=
  sound.extend [] [] guid children declared
    (opcodes.trans (List.append_nil _).symm) (uses.trans (List.append_nil _).symm)
    (by
      rw [opcodes]
      exact sound.shaped [] _ _ rfl)
    (fun _ none => nomatch none) (fun _ _ none => nomatch none) (fun _ none => nomatch none)
    (fun _ none => nomatch none)

variable {platform : Platform} {outer : List BlockParamPair} {floor : Nat}
  {before middle after : List Opcode → Prop} {slots : List Slot} {hashes : Nat} {op : Opcode}

theorem At.clear (present : At slots hashes code) : slots.head? ≠ some .void := present.1

theorem Dead.at (thrown : Dead code) (clear : slots.head? ≠ some .void) :
    At slots hashes code := ⟨clear, .inl thrown⟩

theorem At.due (present : At [.any] hashes code) : Due hashes code := by
  rcases present.2 with thrown | reached
  · exact .inl thrown
  · exact .inr (.inl reached)

theorem At.emit (present : At slots hashes code)
    (steps : Shape.stepSlots op.type op.op1 slots hashes = some (.live rest more))
    (clear : rest.head? ≠ some .void) : At rest more (code ++ [op]) := by
  refine ⟨clear, ?_⟩
  rcases present.2 with thrown | reached
  · exact .inl (Shape.run_snoc thrown op)
  · right
    rw [Shape.run_snoc reached, Shape.step_live op slots hashes present.clear]
    exact steps

theorem At.emitDead (present : At slots hashes code)
    (steps : Shape.stepSlots op.type op.op1 slots hashes = some .dead) :
    Dead (code ++ [op]) := by
  rcases present.2 with thrown | reached
  · exact Shape.run_snoc thrown op
  · rw [Dead, Shape.run_snoc reached, Shape.step_live op slots hashes present.clear]
    exact steps

theorem At.vacate (present : At slots hashes code)
    (steps : Shape.stepSlots op.type op.op1 slots hashes = some (.live [.void] hashes)) :
    Due hashes (code ++ [op]) := by
  rcases present.2 with thrown | reached
  · exact .inl (Shape.run_snoc thrown op)
  · right
    right
    rw [Shape.run_snoc reached, Shape.step_live op slots hashes present.clear]
    exact steps

theorem Due.append (due : Due hashes code) (isAppend : op.type = .append) :
    At [] hashes (code ++ [op]) := by
  refine ⟨nofun, ?_⟩
  rcases due with thrown | reached | reached
  · exact .inl (Shape.run_snoc thrown op)
  · right
    rw [Shape.run_snoc reached, Shape.step_live op [.any] hashes nofun, isAppend]
    rfl
  · right
    rw [Shape.run_snoc reached]
    exact Shape.step_void op isAppend [] hashes

theorem Moves.bind {first second : Compile Unit}
    (front : Moves platform outer floor first before middle)
    (back : Moves platform outer floor second middle after) :
    Moves platform outer floor (first >>= fun _ => second) before after := by
  intro compiler ready
  apply Proc.wp_bind.mpr
  exact Proc.wp_mono (front compiler ready) (fun _ later reached => back later reached)
    (fun _ left => left)

theorem moves_pure : Moves platform outer floor (pure ()) before before :=
  fun _ ready => ready

theorem Moves.weaken {body : Compile Unit}
    (moves : Moves platform outer floor body middle after)
    (weaker : ∀ code, before code → middle code) : Moves platform outer floor body before after :=
  fun compiler ready =>
    moves compiler ⟨ready.sound, weaker _ ready.fits, ready.inside, ready.floor⟩

theorem Moves.widen {body : Compile Unit}
    (moves : Moves platform outer floor body before middle)
    (wider : ∀ code, middle code → after code) : Moves platform outer floor body before after :=
  fun compiler ready => Proc.wp_mono (moves compiler ready)
    (fun _ _ reached => ⟨reached.sound, wider _ reached.fits, reached.inside, reached.floor⟩)
    (fun _ left => left)

/-- The operand that an `append` waits for is not below anything. -/
theorem Moves.clearly {body : Compile Unit}
    (moves : slots.head? ≠ some .void → Moves platform outer floor body (At slots hashes) after) :
    Moves platform outer floor body (At slots hashes) after :=
  fun compiler ready => moves ready.fits.clear compiler ready

theorem moves_abort : Moves platform outer floor Proc.abort before after :=
  fun _ ready => ready.sound

theorem moves_read {view : Compiler → α} {next : α → Compile Unit}
    (rest : ∀ value, Moves platform outer floor (next value) before after) :
    Moves platform outer floor (Proc.read view >>= next) before after :=
  fun compiler ready => rest (view compiler) compiler ready

theorem moves_nonnull {string : Option Str} {next : Str → Compile Unit}
    (rest : ∀ value, Moves platform outer floor (next value) before after) :
    Moves platform outer floor (nonnull string >>= next) before after := by
  intro compiler ready
  cases string with
  | none => exact ready.sound
  | some value => exact rest value compiler ready

theorem moves_raise (error : Error) :
    Moves platform outer floor (raise error) before after :=
  fun _ ready => ready.sound.same rfl rfl rfl rfl rfl

theorem moves_ite {condition : Prop} [Decidable condition] {first second : Compile Unit}
    (holds : condition → Moves platform outer floor first before after)
    (fails : ¬condition → Moves platform outer floor second before after) :
    Moves platform outer floor (if condition then first else second) before after := by
  split
  · exact holds ‹_›
  · exact fails ‹_›

theorem moves_when {condition : Bool} {body : Compile Unit}
    (holds : condition = true → Moves platform outer floor body before after)
    (fails : condition = false → ∀ code, before code → after code) :
    Moves platform outer floor (Proc.when condition body) before after := by
  cases condition with
  | true => exact holds rfl
  | false => exact moves_pure.widen (fails rfl)

/-- A change that soundness does not look at. -/
theorem moves_write {change : Compiler → Compiler}
    (same : ∀ compiler, (change compiler).guid = compiler.guid ∧
      (change compiler).opcodes = compiler.opcodes ∧
      (change compiler).children = compiler.children ∧ (change compiler).uses = compiler.uses ∧
      (change compiler).declared = compiler.declared ∧ (change compiler).bps = compiler.bps) :
    Moves platform outer floor (Proc.write change) before before := by
  intro compiler ready
  obtain ⟨guid, opcodes, children, uses, declared, bps⟩ := same compiler
  refine ⟨ready.sound.same guid opcodes children uses declared, ?_, ?_, ?_⟩
  · rw [opcodes]
    exact ready.fits
  · rw [bps, declared]
    exact ready.inside
  · rw [children]
    exact ready.floor

theorem moves_addResultFlag (flag : Nat) :
    Moves platform outer floor (addResultFlag flag) before before :=
  moves_write fun _ => ⟨rfl, rfl, rfl, rfl, rfl, rfl⟩

theorem moves_addDepth (depth : Nat) :
    Moves platform outer floor (addDepth depth) before before :=
  moves_write fun _ => ⟨rfl, rfl, rfl, rfl, rfl, rfl⟩

/-- The node stack is none of the fields that soundness looks at. -/
theorem moves_located {body : Compile Unit} (loc : LocInfo)
    (moves : Moves platform outer floor body before after) :
    Moves platform outer floor (located loc body) before after := by
  refine moves_read fun nodes => ?_
  cases nodes with
  | none => exact moves_abort
  | some nodes =>
    refine moves_ite (fun _ => moves_raise _) fun _ => moves_ite (fun _ => moves_abort) fun _ => ?_
    refine Moves.bind (moves_write ?_) (moves.bind (moves_write ?_))
    · exact fun _ => ⟨rfl, rfl, rfl, rfl, rfl, rfl⟩
    · exact fun _ => ⟨rfl, rfl, rfl, rfl, rfl, rfl⟩

/-- One more opcode that does not read `last_context`. -/
theorem moves_opcode (silent : op.type.readsContext = false)
    (below : op.PushProgramBelow floor)
    (steps : ∀ code loc, before code → after (code ++ [op.place loc]))
    (shaped : ∀ code, after code → ∃ shape, Shape.run .start code = some shape) :
    Moves platform outer floor (opcode op) before after := by
  intro compiler ready
  have fits := steps _ (compiler.nodeLoc op) ready.fits
  refine ⟨ready.sound.extend [_] [] rfl rfl rfl rfl (List.append_nil _).symm
    (shaped _ fits) ?_ ?_ (fun _ none => nomatch none) (fun _ none => nomatch none), fits,
    ready.inside, ready.floor⟩
  · intro other member
    rw [List.mem_singleton.mp member]
    exact below.mono ready.floor
  · intro index other found reads
    have member := List.mem_of_getElem? found
    rw [List.mem_singleton.mp member, OpcodeOf.place_type, silent] at reads
    cases reads

theorem At.shaped (present : At slots hashes code) :
    ∃ shape, Shape.run .start code = some shape := by
  rcases present.2 with thrown | reached
  · exact ⟨_, thrown⟩
  · exact ⟨_, reached⟩

theorem Due.shaped (due : Due hashes code) : ∃ shape, Shape.run .start code = some shape := by
  rcases due with thrown | reached | reached
  · exact ⟨_, thrown⟩
  · exact ⟨_, reached⟩
  · exact ⟨_, reached⟩

/-- One more opcode that is neither a lookup nor a `push_program`. -/
theorem moves_emit (plain : op.type.isPlain = true)
    (steps : Shape.stepSlots op.type op.op1 slots hashes = some (.live rest more))
    (clear : rest.head? ≠ some .void) :
    Moves platform outer floor (opcode op) (At slots hashes) (At rest more) :=
  moves_opcode (OpcodeType.isPlain_reads plain)
    (fun isPush => absurd isPush (OpcodeType.isPlain_push plain))
    (fun _ _ present => present.emit steps clear) (fun _ present => present.shaped)

/-- An opcode that the VM does not run. -/
theorem moves_emitDead (plain : op.type.isPlain = true)
    (steps : Shape.stepSlots op.type op.op1 slots hashes = some .dead) :
    Moves platform outer floor (opcode op) (At slots hashes) Dead :=
  moves_opcode (OpcodeType.isPlain_reads plain)
    (fun isPush => absurd isPush (OpcodeType.isPlain_push plain))
    (fun _ _ present => present.emitDead steps) (fun _ thrown => ⟨_, thrown⟩)

theorem moves_vacate (plain : op.type.isPlain = true)
    (steps : Shape.stepSlots op.type op.op1 slots hashes = some (.live [.void] hashes)) :
    Moves platform outer floor (opcode op) (At slots hashes) (Due hashes) :=
  moves_opcode (OpcodeType.isPlain_reads plain)
    (fun isPush => absurd isPush (OpcodeType.isPlain_push plain))
    (fun _ _ present => present.vacate steps) (fun _ due => due.shaped)

theorem moves_append : Moves platform outer floor (opN .append) (Due hashes) (At [] hashes) :=
  moves_opcode rfl (fun isPush => nomatch isPush) (fun _ _ due => due.append rfl)
    (fun _ present => present.shaped)

/-- No program, or one of the children there are. -/
def GuidBelow (floor : Nat) (guid : Int) : Prop :=
  guid = -1 ∨ ∃ index : Nat, index < floor ∧ guid = index

theorem moves_pushProgram {guid : Int} (below : GuidBelow floor guid) :
    Moves platform outer floor (pushProgram guid) (At slots hashes)
      (At (.program :: slots) hashes) := by
  unfold pushProgram
  rcases below with rfl | ⟨index, bound, rfl⟩
  · exact moves_opcode rfl (fun _ => ⟨rfl, .inl ⟨false, rfl⟩⟩)
      (fun _ _ present => present.emit rfl nofun) (fun _ present => present.shaped)
  · rw [if_neg (by omega)]
    exact moves_opcode rfl (fun _ => ⟨rfl, .inr ⟨index, bound, rfl⟩⟩)
      (fun _ _ present => present.emit rfl nofun) (fun _ present => present.shaped)

/-- A procedure that pushes one operand. -/
def Pushes (platform : Platform) (outer : List BlockParamPair) (floor : Nat)
    (body : Compile Unit) : Prop :=
  ∀ slots hashes, Moves platform outer floor body (At slots hashes) (At (.any :: slots) hashes)

theorem pushes_emit (plain : op.type.isPlain = true)
    (steps : ∀ slots hashes,
      Shape.stepSlots op.type op.op1 slots hashes = some (.live (.any :: slots) hashes)) :
    Pushes platform outer floor (opcode op) :=
  fun slots hashes => moves_emit plain (steps slots hashes) nofun

end Compiler

end HandlebarsC
