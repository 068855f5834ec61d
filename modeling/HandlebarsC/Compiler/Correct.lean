import HandlebarsC.Compiler.Moves
import HandlebarsC.Serializer.Correct

/-!
Every acceptor keeps the compiler sound, whatever it is given: parameters push one
operand each, statements leave nothing, and nested programs become sound children.
-/

namespace HandlebarsC

open Effect

namespace Compiler

variable {platform : Platform} {outer : List BlockParamPair} {floor : Nat}

theorem pathLookup_plain (path : PathNode) (found : Option (Nat × Nat)) (slots : List Slot)
    (hashes : Nat) : (pathLookup path found).type ≠ .pushProgram ∧
      Shape.stepSlots (pathLookup path found).type (pathLookup path found).op1 slots hashes =
        some (.live (.any :: slots) hashes) := by
  unfold pathLookup
  split
  · exact ⟨nofun, rfl⟩
  · split
    · exact ⟨nofun, rfl⟩
    · split <;> exact ⟨nofun, rfl⟩

/-- A path is recorded together with its two opcodes. -/
theorem pushes_acceptPath (path : PathNode) :
    Pushes platform outer floor (acceptPath platform path) := by
  intro slots hashes compiler ready
  obtain ⟨pair, bps, around⟩ := ready.inside
  have scopes : compiler.bps.getD [] = pair :: outer := by
    rw [bps]
    rfl
  let lookup := pathLookup path (pathBlockParam platform (compiler.bps.getD []) path)
  obtain ⟨notPush, steps⟩ :=
    pathLookup_plain path (pathBlockParam platform (compiler.bps.getD []) path) slots hashes
  let new := [(pathContext path).place (compiler.nodeLoc (pathContext path)),
    lookup.place (compiler.nodeLoc lookup)]
  have fetched : At slots hashes
      (compiler.opcodes ++ [(pathContext path).place (compiler.nodeLoc (pathContext path))]) :=
    ready.fits.emit rfl ready.fits.clear
  have placed : Shape.stepSlots (lookup.place (compiler.nodeLoc lookup)).type
      (lookup.place (compiler.nodeLoc lookup)).op1 slots hashes = _ := steps
  have emitted := fetched.emit placed nofun
  refine ⟨?_, ?_, ⟨pair, bps, around⟩, ready.floor⟩
  · refine ready.sound.extend new [_] rfl rfl rfl (List.append_assoc _ _ _) rfl
      emitted.shaped ?_ ?_ ?_ ?_
    · intro opcode member isPush
      rcases List.mem_cons.mp member with rfl | member
      · cases isPush
      · rw [List.mem_singleton.mp member] at isPush
        exact absurd isPush notPush
    · intro index opcode found reads
      refine ⟨_, List.mem_singleton_self _, rfl, ?_⟩
      cases index with
      | zero =>
        cases found
        cases reads
      | succ index =>
        cases index with
        | zero => rfl
        | succ index => cases found
    · intro use member
      rw [List.mem_singleton.mp member]
      exact ⟨rfl, PathUse.at_end _ rfl _ _⟩
    · intro use member
      rw [List.mem_singleton.mp member]
      exact .here rfl scopes around
  · exact emitted

theorem pushes_acceptLiteral (type : LiteralType) (value : Str) :
    Pushes platform outer floor (acceptLiteral platform type value) := by
  have literal : ∀ operand : Operand,
      Pushes platform outer floor (opcode { opcodeCtor .pushLiteral with op1 := operand }) :=
    fun operand => pushes_emit rfl fun _ _ => rfl
  cases type with
  | boolean | nul | undefined => exact literal _
  | string => exact pushes_emit rfl fun _ _ => rfl
  | number =>
    change Pushes platform outer floor (acceptNumber platform value)
    unfold acceptNumber
    split
    · exact literal _
    · split
      · exact literal _
      · exact literal _

theorem pushes_path (loc : LocInfo) (path : PathNode) :
    Pushes platform outer floor (located loc (acceptPath platform path)) :=
  fun slots hashes => moves_located loc (pushes_acceptPath path slots hashes)

theorem pushes_acceptName (name : HelperName) :
    Pushes platform outer floor (acceptName platform name) := by
  cases name with
  | path path => exact pushes_path path.loc path
  | literal type loc value =>
    exact fun slots hashes => moves_located loc (pushes_acceptLiteral type value slots hashes)

/-! ### Arguments -/

/-- A sequence that has thrown may be followed by anything. -/
theorem Moves.revive {body : Compile Unit} (moves : Moves platform outer floor body before Dead)
    (clear : slots.head? ≠ some .void) : Moves platform outer floor body before (At slots hashes) :=
  moves.widen fun _ thrown => thrown.at clear

theorem moves_getContext (depth : Int) (clear : slots.head? ≠ some .void) :
    Moves platform outer floor (opcode { opcodeCtor .getContext with op1 := .long depth })
      (At slots hashes) (At slots hashes) :=
  moves_emit rfl rfl clear

theorem moves_pushHash (clear : slots.head? ≠ some .void) :
    Moves platform outer floor (opcode (opcodeCtor .pushHash)) (At slots hashes)
      (At slots (hashes + 1)) :=
  moves_emit rfl rfl clear

theorem moves_emptyHash :
    Moves platform outer floor (opcode (opcodeCtor .emptyHash)) (At slots hashes)
      (At (.any :: slots) hashes) :=
  moves_emit rfl rfl nofun

theorem pushes_pushStringParam (param : Param) {accept : Compile Unit}
    (accepts : Pushes platform outer floor accept) :
    Pushes platform outer floor (pushStringParam param accept) := by
  intro slots hashes
  refine Moves.clearly fun clear => (moves_addDepth _).bind ?_
  refine (moves_getContext (paramDepth param) clear).bind ?_
  refine moves_nonnull fun string => (moves_emitDead rfl rfl).bind ?_
  refine moves_when (fun _ => ?_) fun _ _ thrown => thrown.at nofun
  exact (accepts slots hashes).weaken fun _ thrown => thrown.at clear

theorem moves_pushId (param : Param) :
    Moves platform outer floor (pushId platform param) (At slots hashes) Dead := by
  refine moves_read fun scopes => ?_
  cases paramBlockParam platform scopes param with
  | some found => exact moves_emitDead rfl rfl
  | none => exact moves_nonnull fun string => moves_emitDead rfl rfl

theorem pushes_pushParam (param : Param) {accept : Compile Unit}
    (accepts : Pushes platform outer floor accept) :
    Pushes platform outer floor (pushParam platform param accept) := by
  intro slots hashes
  refine Moves.clearly fun clear => moves_read fun flags => ?_
  refine moves_ite (fun _ => pushes_pushStringParam param accepts slots hashes) fun _ => ?_
  refine Moves.bind ?_ (accepts slots hashes)
  exact moves_when (fun _ => (moves_pushId param).revive clear) fun _ _ present => present

theorem moves_pushProgramPair {programGuid inverseGuid : Int} (program : GuidBelow floor programGuid)
    (inverse : GuidBelow floor inverseGuid) :
    Moves platform outer floor (pushProgramPair programGuid inverseGuid) (At slots hashes)
      (At (.program :: .program :: slots) hashes) :=
  (moves_pushProgram program).bind (moves_pushProgram inverse)

/-- `pushed` operands on top of others -/
def stacked (pushed : Nat) (slots : List Slot) : List Slot :=
  List.replicate pushed .any ++ slots

/-- What `setup_options` finds on top of the others: the hash, the two programs and the arguments. -/
def options (pushed : Nat) (slots : List Slot) : List Slot :=
  .any :: .program :: .program :: stacked pushed slots

theorem stacked_snoc (pushed : Nat) (slots : List Slot) :
    stacked pushed (.any :: slots) = stacked (pushed + 1) slots := by
  induction pushed with
  | zero => rfl
  | succ pushed ih => exact congrArg (.any :: ·) ih

theorem stacked_clear (pushed : Nat) (clear : slots.head? ≠ some .void) :
    (stacked pushed slots).head? ≠ some .void := by
  cases pushed with
  | zero => exact clear
  | succ pushed => exact nofun

/-- What the parts of a node's arguments leave on the stack. -/
structure ArgumentsMove (platform : Platform) (outer : List BlockParamPair) (floor : Nat)
    (pushed : Nat) (arguments : Arguments) : Prop where
  params : ∀ slots hashes,
    Moves platform outer floor arguments.params (At slots hashes) (At (stacked pushed slots) hashes)
  hash : ∀ body, arguments.hash = some body → Pushes platform outer floor body

theorem ArgumentsMove.setup {arguments : Arguments} {programGuid inverseGuid : Int}
    (moves : ArgumentsMove platform outer floor pushed arguments)
    (program : GuidBelow floor programGuid) (inverse : GuidBelow floor inverseGuid)
    (omitEmpty : Bool) (slots : List Slot) (hashes : Nat) :
    Moves platform outer floor
      (setupFullMustacheParams arguments programGuid inverseGuid omitEmpty)
      (At slots hashes) (At (options pushed slots) hashes) := by
  refine (moves.params slots hashes).bind ((moves_pushProgramPair program inverse).bind ?_)
  cases given : arguments.hash with
  | some body => exact moves.hash body given _ _
  | none =>
    cases omitEmpty with
    | true => exact moves_emit rfl rfl nofun
    | false => exact moves_emit rfl rfl nofun

/-! ### Expressions -/

theorem takeOptions_options (pushed : Nat) (slots : List Slot) :
    Shape.takeOptions pushed (options pushed slots) = some slots :=
  Shape.takeArguments_replicate pushed slots

theorem steps_invokeKnownHelper (count : Nat) (slots : List Slot) (hashes : Nat) :
    Shape.stepSlots .invokeKnownHelper (.long count) (options count slots) hashes =
      some (.live (.any :: slots) hashes) := by
  simp [Shape.stepSlots, Shape.argcOf, Shape.replace, takeOptions_options]

theorem steps_invokeHelper (count : Nat) (slots : List Slot) (hashes : Nat) :
    Shape.stepSlots .invokeHelper (.long count) (.any :: options count slots) hashes =
      some (.live (.any :: slots) hashes) := by
  simp [Shape.stepSlots, Shape.argcOf, Shape.replace, takeOptions_options]

theorem moves_acceptSexprHelper {arguments : Arguments} {programGuid inverseGuid : Int}
    (moves : ArgumentsMove platform outer floor arguments.count arguments) (path : PathNode)
    (program : GuidBelow floor programGuid) (inverse : GuidBelow floor inverseGuid) :
    Pushes platform outer floor (acceptSexprHelper platform path arguments programGuid inverseGuid) := by
  intro slots hashes
  refine (moves.setup program inverse false slots hashes).bind (moves_read fun compiler => ?_)
  refine moves_ite (fun _ => ?_) fun _ => moves_ite (fun _ => ?_) fun _ => ?_
  · exact moves_nonnull fun name => moves_emit rfl (steps_invokeKnownHelper _ _ _) nofun
  · exact moves_nonnull fun name => moves_raise _
  · refine (pushes_path _ _ _ hashes).bind (moves_nonnull fun original => ?_)
    exact moves_emit rfl (steps_invokeHelper _ _ _) nofun

theorem pushes_acceptSexprSimple (path : PathNode) :
    Pushes platform outer floor (acceptSexprSimple platform path) :=
  fun slots hashes => (pushes_path _ _ slots hashes).bind (moves_emit rfl rfl nofun)

theorem pushes_acceptSexprAmbiguous {programGuid inverseGuid : Int} (path : PathNode)
    (program : GuidBelow floor programGuid) (inverse : GuidBelow floor inverseGuid)
    (printed : Option Str) :
    Pushes platform outer floor
      (acceptSexprAmbiguous platform path programGuid inverseGuid printed) := by
  intro slots hashes
  refine Moves.clearly fun clear => ?_
  refine (moves_getContext path.depth clear).bind ?_
  refine (moves_pushProgramPair program inverse).bind ((pushes_path _ _ _ hashes).bind ?_)
  exact moves_read fun flags => moves_nonnull fun name => moves_emit rfl rfl nofun

theorem pushes_acceptSexpr {arguments : Arguments}
    (moves : ArgumentsMove platform outer floor arguments.count arguments) (path : PathNode)
    (isHelperExpression : Bool) :
    Pushes platform outer floor (acceptSexpr platform path arguments isHelperExpression) := by
  intro slots hashes
  refine moves_read fun compiler => ?_
  cases classifySexpr platform compiler path isHelperExpression with
  | helper => exact moves_acceptSexprHelper moves path (.inl rfl) (.inl rfl) slots hashes
  | simple => exact pushes_acceptSexprSimple path slots hashes
  | ambig => exact pushes_acceptSexprAmbiguous path (.inl rfl) (.inl rfl) none slots hashes

theorem steps_assignToHash (count : Nat) (op1 : Operand) (slots : List Slot) (hashes : Nat) :
    Shape.stepSlots .assignToHash op1 (stacked (count + 1) slots) (hashes + 1) =
      some (.live (stacked count slots) (hashes + 1)) := by
  simp [Shape.stepSlots, stacked, List.replicate_succ, Shape.takeArguments]

/-- The values of a hash come off the stack one by one. -/
theorem moves_assignToHash (keys : List Str) (clear : slots.head? ≠ some .void) :
    Moves platform outer floor (keys.forM (opS .assignToHash))
      (At (stacked keys.length slots) (hashes + 1)) (At slots (hashes + 1)) := by
  induction keys with
  | nil => exact moves_pure
  | cons key keys ih =>
    exact Moves.bind (moves_emit rfl (steps_assignToHash keys.length _ slots hashes)
      (stacked_clear keys.length clear)) ih

theorem pushes_acceptHash {values : Compile Unit} (keys : List Str)
    (moves : ∀ slots hashes, Moves platform outer floor values (At slots hashes)
      (At (stacked keys.length slots) hashes)) :
    Pushes platform outer floor (acceptHash keys values) := by
  intro slots hashes
  refine Moves.clearly fun clear => ?_
  refine (moves_pushHash clear).bind ?_
  refine (moves slots (hashes + 1)).bind ?_
  rw [← List.length_reverse]
  exact (moves_assignToHash keys.reverse clear).bind (moves_emit rfl rfl nofun)

theorem pairKeys_length (pairs : List HashPair) : (pairKeys pairs).length = pairs.length := by
  induction pairs with
  | nil => rfl
  | cons pair rest ih =>
    cases pair with
    | mk key value => exact congrArg (· + 1) ih

mutual

theorem pushes_acceptParam (param : Param) :
    Pushes platform outer floor (acceptParam platform param) := by
  cases param with
  | name name => exact pushes_acceptName name
  | sexpr loc path params hash =>
    rw [acceptParam]
    refine fun slots hashes => moves_located loc (pushes_acceptSexpr ?_ _ _ slots hashes)
    exact ⟨moves_pushParams params, pushes_acceptHashOption hash⟩

theorem moves_pushParams (params : List Param) (slots : List Slot) (hashes : Nat) :
    Moves platform outer floor (pushParams platform params) (At slots hashes)
      (At (stacked params.length slots) hashes) := by
  cases params with
  | nil => exact moves_pure
  | cons param rest =>
    refine (pushes_pushParam param (pushes_acceptParam param) slots hashes).bind ?_
    rw [List.length_cons, ← stacked_snoc]
    exact moves_pushParams rest (.any :: slots) hashes

theorem pushes_acceptHashOption (hash : Option HashNode) :
    ∀ body, acceptHashOption platform hash = some body → Pushes platform outer floor body := by
  cases hash with
  | none => exact fun body none => nomatch none
  | some hash =>
    intro body same
    cases same
    exact pushes_acceptHashNode hash

theorem pushes_acceptHashNode (hash : HashNode) :
    Pushes platform outer floor (acceptHashNode platform hash) := by
  cases hash with
  | mk loc pairs =>
    rw [acceptHashNode]
    refine fun slots hashes => moves_located loc (pushes_acceptHash _ ?_ slots hashes)
    rw [pairKeys_length]
    exact moves_pushPairs pairs

theorem moves_pushPairs (pairs : List HashPair) (slots : List Slot) (hashes : Nat) :
    Moves platform outer floor (pushPairs platform pairs) (At slots hashes)
      (At (stacked pairs.length slots) hashes) := by
  cases pairs with
  | nil => exact moves_pure
  | cons pair rest =>
    cases pair with
    | mk key value =>
      refine (pushes_pushParam value (pushes_acceptParam value) slots hashes).bind ?_
      rw [List.length_cons, ← stacked_snoc]
      exact moves_pushPairs rest (.any :: slots) hashes

end

theorem argumentsOf_move (params : List Param) (hash : Option HashNode) :
    ArgumentsMove platform outer floor params.length (argumentsOf platform params hash) :=
  ⟨moves_pushParams params, pushes_acceptHashOption hash⟩

/-! ### Nested programs -/

theorem GuidBelow.mono {guid : Int} (below : GuidBelow floor guid) (further : floor ≤ more) :
    GuidBelow more guid := by
  rcases below with none | ⟨index, bound, same⟩
  · exact .inl none
  · exact .inr ⟨index, Nat.lt_of_lt_of_le bound further, same⟩

/-- A procedure that compiles one program, inside of whatever block parameters. -/
def Builds (platform : Platform) (body : Compile Unit) : Prop :=
  ∀ scopes compiler, compiler.bps = some scopes → compiler.guid = 0 → compiler.opcodes = [] →
    compiler.children = [] → compiler.uses = [] →
      body.wp (fun _ => Sound platform scopes) (Sound platform scopes) compiler

theorem Ready.mono (ready : Ready platform outer more before compiler) (less : floor ≤ more) :
    Ready platform outer floor before compiler :=
  ⟨ready.sound, ready.fits, ready.inside, Nat.le_trans less ready.floor⟩

/-- A sound child more, and its number. -/
theorem Ready.adopt {sub : Compiler} (ready : Ready platform outer floor before compiler)
    (child : Sound platform (compiler.bps.getD []) sub) :
    Ready platform outer (compiler.children.length + 1) before (adopt compiler sub) := by
  obtain ⟨pair, bps, around⟩ := ready.inside
  rw [bps] at child
  refine ⟨ready.sound.adopt around child, ready.fits, ⟨pair, bps, ?_⟩, ?_⟩
  · exact List.mem_append_left _ around
  · simp [Compiler.adopt]

theorem compileChild_wp {body : Compile Unit} (builds : Builds platform body)
    (ready : Ready platform outer floor before compiler) :
    (compileChild body).wp
      (fun _ => Ready platform outer (compiler.children.length + 1) before) (Sound platform outer)
      compiler := by
  obtain ⟨pair, bps, -⟩ := ready.inside
  have built := builds _ (subcompiler compiler) bps rfl rfl rfl rfl
  unfold Proc.wp at built
  unfold Proc.wp compileChild within
  cases ended : (body (subcompiler compiler)).1 with
  | ok value sub =>
    rw [ended] at built
    refine ready.adopt ?_
    rw [bps]
    exact built
  | thrown sub => exact ready.sound.same rfl rfl rfl rfl rfl
  | aborted sub => exact ready.sound
  | exhausted sub => exact ready.sound

/-- What follows a nested program may name it. -/
theorem moves_compileProgram {node : Option (Compile Unit)} {next : Int → Compile Unit}
    (builds : ∀ body, node = some body → Builds platform body)
    (rest : ∀ guid more, floor ≤ more → GuidBelow more guid →
      Moves platform outer more (next guid) before after) :
    Moves platform outer floor (compileProgram node >>= next) before after := by
  intro compiler ready
  cases node with
  | none => exact rest (-1) floor (Nat.le_refl _) (.inl rfl) compiler ready
  | some body =>
    apply Proc.wp_bind.mpr
    apply Proc.wp_bind.mpr
    change Proc.wp (compileChild body >>= fun _ => pure (compiler.guid : Int)) _ _ compiler
    apply Proc.wp_bind.mpr
    refine Proc.wp_mono (compileChild_wp (builds body rfl) ready) ?_ fun _ sound => sound
    intro _ adopted adoptedReady
    have named : GuidBelow (compiler.children.length + 1) compiler.guid :=
      .inr ⟨_, Nat.lt_succ_self _, congrArg _ ready.sound.counted⟩
    have further := Nat.le_succ_of_le ready.floor
    have continued := rest compiler.guid _ further named adopted adoptedReady
    change Proc.wp (next compiler.guid) _ _ adopted
    exact Proc.wp_mono continued (fun _ _ reached => reached.mono further) fun _ sound => sound

/-- The compiler of an alternate decorator leaves its program with the decorators. -/
theorem moves_alternateDecorator (body : Compile Unit) :
    Moves platform outer floor (alternateDecorator body) before before := by
  intro compiler ready
  unfold Proc.wp alternateDecorator within
  dsimp only
  split
  · exact ⟨ready.sound.same rfl rfl rfl rfl rfl, ready.fits, ready.inside, ready.floor⟩
  · exact ready.sound.same rfl rfl rfl rfl rfl
  · exact ready.sound
  · exact ready.sound

/-! ### Statements -/

theorem moves_acceptDecorator {arguments : Arguments} {programGuid inverseGuid : Int}
    (original : Option Str) (moves : ArgumentsMove platform outer floor pushed arguments)
    (program : GuidBelow floor programGuid) (inverse : GuidBelow floor inverseGuid) :
    Moves platform outer floor (acceptDecorator original arguments programGuid inverseGuid)
      (At [] hashes) (At [] hashes) := by
  refine (moves_addResultFlag _).bind (moves_read fun flags => ?_)
  refine moves_ite (fun _ => moves_alternateDecorator _) fun _ => ?_
  refine (moves.setup program inverse false [] hashes).bind (moves_nonnull fun name => ?_)
  exact (moves_emitDead rfl rfl).revive nofun

theorem steps_ambiguousBlockValue (op1 : Operand) (hashes : Nat) :
    Shape.stepSlots .ambiguousBlockValue op1 (options 1 []) hashes =
      some (.live [.any] hashes) := rfl

theorem steps_blockValue (op1 : Operand) (hashes : Nat) :
    Shape.stepSlots .blockValue op1 (options 1 []) hashes = some (.live [.void] hashes) := rfl

/-- A block's call leaves what its `append` takes. -/
theorem moves_acceptBlockCall {arguments : Arguments} {programGuid inverseGuid : Int}
    (moves : ArgumentsMove platform outer floor arguments.count arguments) (path : PathNode)
    (program : GuidBelow floor programGuid) (inverse : GuidBelow floor inverseGuid)
    (printed : Option Str) (type : SexprType) :
    Moves platform outer floor
      (acceptBlockCall platform path arguments programGuid inverseGuid printed type)
      (At [] hashes) (Due hashes) := by
  cases type with
  | helper =>
    exact (moves_acceptSexprHelper moves path program inverse [] hashes).widen fun _ => At.due
  | simple =>
    refine (pushes_acceptSexprSimple path [] hashes).bind ?_
    refine (moves_pushProgramPair program inverse).bind ?_
    refine moves_emptyHash.bind ?_
    exact moves_nonnull fun original => moves_vacate rfl (steps_blockValue _ hashes)
  | ambig =>
    refine (pushes_acceptSexprAmbiguous path program inverse printed [] hashes).bind ?_
    refine (moves_pushProgramPair program inverse).bind ?_
    refine moves_emptyHash.bind ?_
    have called : Moves platform outer floor (opN .ambiguousBlockValue) (At (options 1 []) hashes)
        (At [.any] hashes) := moves_emit rfl (steps_ambiguousBlockValue _ hashes) nofun
    exact called.widen fun _ => At.due

theorem moves_acceptBlockSexpr {arguments : Arguments} {programGuid inverseGuid : Int}
    (moves : ArgumentsMove platform outer floor arguments.count arguments) (path : PathNode)
    (program : GuidBelow floor programGuid) (inverse : GuidBelow floor inverseGuid)
    (printed : Option Str) :
    Moves platform outer floor
      (acceptBlockSexpr platform path arguments programGuid inverseGuid printed)
      (At [] hashes) (At [] hashes) :=
  moves_read fun _ =>
    (moves_acceptBlockCall moves path program inverse printed _).bind moves_append

theorem moves_acceptMustache (path : HelperName) (params : List Param) (hash : Option HashNode)
    (unescaped isDecorator : Bool) :
    Moves platform outer floor
      (acceptMustache platform path (argumentsOf platform params hash) unescaped isDecorator)
      (At [] hashes) (At [] hashes) := by
  refine moves_ite (fun _ => ?_) fun _ => ?_
  · exact moves_acceptDecorator _ (argumentsOf_move params hash) (.inl rfl) (.inl rfl)
  · refine (pushes_acceptSexpr (argumentsOf_move params hash) _ _ [] hashes).bind ?_
    refine moves_read fun flags => moves_ite (fun _ => ?_) fun _ => ?_
    · exact moves_emit rfl rfl nofun
    · exact moves_emit rfl rfl nofun

theorem moves_acceptContent (value : Str) :
    Moves platform outer floor (acceptContent value) (At [] hashes) (At [] hashes) :=
  moves_ite (fun _ => moves_emit rfl rfl nofun) fun _ => moves_pure

/-! ### Partials -/

theorem moves_partialNameOperand {next : Operand → Compile Unit} (name : Param)
    (rest : ∀ operand, Moves platform outer floor (next operand) before after) :
    Moves platform outer floor (partialNameOperand platform name >>= next) before after := by
  cases name with
  | sexpr loc path params hash => exact rest _
  | name name =>
    cases name with
    | path node =>
      simp only [partialNameOperand, bind_assoc, pure_bind]
      exact moves_nonnull fun text => rest _
    | literal type loc value =>
      cases type with
      | number =>
        unfold partialNameOperand
        dsimp only
        cases platform.numberLong value with
        | none => exact rest _
        | some long => exact rest _
      | boolean | nul | string | undefined => exact rest (.string value)

/-- The operands below the options of a partial call. -/
def partialOperands (isDynamic : Bool) : Nat := if isDynamic then 2 else 1

theorem steps_invokePartial (isDynamic : Bool) (hashes : Nat) :
    Shape.stepSlots .invokePartial (.boolean isDynamic) (options (partialOperands isDynamic) [])
      hashes = some (.live [.void] hashes) := by
  cases isDynamic <;> rfl

theorem moves_emitInvokePartial (name : Param) (isDynamic : Bool) (indent : Option Str) :
    Moves platform outer floor (emitInvokePartial platform name isDynamic indent)
      (At (options (partialOperands isDynamic) []) hashes) (At [] hashes) := by
  have prevented : ∀ condition text, Moves platform outer floor
      (Proc.when condition (opS .appendContent text))
      (At (options (partialOperands isDynamic) []) hashes)
      (At (options (partialOperands isDynamic) []) hashes) :=
    fun _ _ => moves_when (fun _ => moves_emit rfl rfl nofun) fun _ _ present => present
  refine moves_read fun flags => (prevented _ _).bind ?_
  refine moves_partialNameOperand name fun operand => ?_
  exact (moves_vacate rfl (steps_invokePartial isDynamic hashes)).bind moves_append

/-- A partial call without an argument of its own is given one, unless it asks for none. -/
theorem partialArguments_move (params : List Param) (hash : Option HashNode) (isExplicit : Bool) :
    ArgumentsMove platform outer floor
      (if params.length = 0 ∧ isExplicit = false then 1 else params.length)
      (partialArguments platform (argumentsOf platform params hash) isExplicit) := by
  unfold partialArguments
  by_cases missing : params.length = 0 ∧ isExplicit = false
  · have same : (argumentsOf platform params hash).count = 0 ∧ isExplicit = false := missing
    rw [if_pos missing, if_pos same]
    exact ⟨pushes_pushParam _ (pushes_acceptParam _), pushes_acceptHashOption hash⟩
  · have same : ¬((argumentsOf platform params hash).count = 0 ∧ isExplicit = false) := missing
    rw [if_neg missing, if_neg same]
    exact argumentsOf_move params hash

/-- The argument of a partial call, or the `undefined` in its place, and a dynamic name. -/
theorem partial_operands (params : List Param) (isExplicit isDynamic : Bool)
    (single : ¬params.length > 1) :
    options (if params.length = 0 ∧ isExplicit = false then 1 else params.length)
        (stacked isDynamic.toNat (stacked (params.length = 0 && isExplicit : Bool).toNat [])) =
      options (partialOperands isDynamic) [] := by
  have counts : params.length = 0 ∨ params.length = 1 := by omega
  rcases counts with count | count
  · rw [count]
    cases isExplicit <;> cases isDynamic <;> rfl
  · rw [count]
    cases isExplicit <;> cases isDynamic <;> rfl

theorem moves_acceptPartial {program : Option (Compile Unit)} (loc : LocInfo) (name : Param)
    (params : List Param) (hash : Option HashNode) (indent : Option Str)
    (builds : ∀ body, program = some body → Builds platform body) :
    Moves platform outer floor
      (acceptPartial platform loc name (acceptParam platform name)
        (argumentsOf platform params hash) program indent)
      (At [] hashes) (At [] hashes) := by
  refine (moves_addResultFlag _).bind (moves_read fun flags => ?_)
  refine moves_ite (fun _ => moves_raise _) fun single => ?_
  have undefined : ∀ condition, Moves platform outer floor
      (Proc.when condition (opS .pushLiteral (bytes "undefined")))
      (At [] hashes) (At (stacked condition.toNat []) hashes) := by
    intro condition
    cases condition with
    | true => exact moves_emit rfl rfl nofun
    | false => exact moves_pure
  have named : ∀ slots, Moves platform outer floor
      (Proc.when (isSexpr name) (acceptParam platform name))
      (At slots hashes) (At (stacked (isSexpr name).toNat slots) hashes) := by
    intro slots
    cases isSexpr name with
    | true => exact pushes_acceptParam name slots hashes
    | false => exact moves_pure
  refine (undefined _).bind ((named _).bind ?_)
  refine moves_compileProgram builds fun guid more _ below => ?_
  have moves : ArgumentsMove platform outer more _ _ :=
    partialArguments_move params hash (flags.has Flag.explicitPartialContext)
  refine (moves.setup below (.inl rfl) true _ hashes).bind ?_
  have operands := partial_operands params (flags.has Flag.explicitPartialContext)
    (isSexpr name) single
  have emitted : Moves platform outer more _ _ _ :=
    @moves_emitInvokePartial platform outer more hashes name (isSexpr name) indent
  rw [← operands] at emitted
  exact emitted

/-! ### Programs -/

theorem builds_located {body : Compile Unit} (loc : LocInfo) (builds : Builds platform body) :
    Builds platform (located loc body) := by
  intro scopes compiler bps guid opcodes children uses
  have fresh : Sound platform scopes compiler := .fresh guid opcodes children uses
  unfold located
  apply Proc.wp_read
  cases compiler.sns with
  | none => exact fresh
  | some nodes =>
    dsimp only
    split
    · exact fresh.same rfl rfl rfl rfl rfl
    · split
      · exact fresh
      · apply Proc.wp_bind.mpr
        apply Proc.wp_bind.mpr
        refine Proc.wp_mono (builds scopes _ bps guid opcodes children uses) ?_ fun _ sound => sound
        exact fun _ _ sound => sound.same rfl rfl rfl rfl rfl

theorem builds_acceptProgram {statements : Compile Unit} (blockParam1 blockParam2 : Option Str)
    (count : Nat)
    (moves : ∀ outer, Moves platform outer 0 statements (At [] 0) (At [] 0)) :
    Builds platform (acceptProgram blockParam1 blockParam2 count statements) := by
  intro scopes compiler bps guid opcodes children uses
  have fresh : Sound platform scopes compiler := .fresh guid opcodes children uses
  unfold acceptProgram
  apply Proc.wp_read
  rw [bps]
  dsimp only
  split
  · exact fresh.same rfl rfl rfl rfl rfl
  · split
    · exact fresh
    · apply Proc.wp_bind.mpr
      apply Proc.wp_bind.mpr
      refine Proc.wp_mono (moves scopes _ ⟨.fresh guid opcodes children uses, ?_, ?_, ?_⟩) ?_
        fun _ sound => sound
      · change At [] 0 compiler.opcodes
        rw [opcodes]
        exact ⟨nofun, .inr rfl⟩
      · exact ⟨_, rfl, List.mem_append_right _ (List.mem_singleton_self _)⟩
      · exact Nat.zero_le _
      · intro _ after ready
        cases decide (count = 1) with
        | true => exact ready.sound.same rfl rfl rfl rfl rfl
        | false => exact ready.sound.same rfl rfl rfl rfl rfl

mutual

theorem moves_acceptStatement (statement : Statement) (outer : List BlockParamPair)
    (floor hashes : Nat) :
    Moves platform outer floor (acceptStatement platform statement) (At [] hashes) (At [] hashes) := by
  cases statement with
  | block loc path params hash program inverse isDecorator =>
    rw [acceptStatement]
    refine moves_located loc ?_
    refine moves_compileProgram (builds_acceptNodeOption program) fun guid more _ below => ?_
    refine moves_ite (fun _ => ?_) fun _ => ?_
    · exact moves_acceptDecorator _ (argumentsOf_move params hash) below (.inl rfl)
    · refine moves_compileProgram (builds_acceptNodeOption inverse) fun other most further named => ?_
      exact moves_acceptBlockSexpr (argumentsOf_move params hash) _ (below.mono further) named _
  | rawBlock loc path params hash program inverse =>
    rw [acceptStatement]
    refine moves_located loc ?_
    refine moves_compileProgram (builds_acceptNodeOption program) fun guid more _ below => ?_
    refine moves_compileProgram (builds_acceptNodeOption inverse) fun other most further named => ?_
    exact moves_acceptBlockSexpr (argumentsOf_move params hash) _ (below.mono further) named none
  | mustache loc path params hash unescaped isDecorator =>
    rw [acceptStatement]
    exact moves_located loc (moves_acceptMustache path params hash unescaped isDecorator)
  | partialCall loc name params hash indent =>
    rw [acceptStatement]
    exact moves_located loc
      (moves_acceptPartial loc name params hash indent fun body none => nomatch none)
  | partialBlock loc name params hash program =>
    rw [acceptStatement]
    exact moves_located loc
      (moves_acceptPartial loc name params hash none (builds_acceptNodeOption program))
  | content loc value =>
    rw [acceptStatement]
    exact moves_located loc (moves_acceptContent value)
  | comment loc =>
    rw [acceptStatement]
    exact moves_located loc moves_pure

theorem moves_acceptStatements (statements : List Statement) (outer : List BlockParamPair)
    (floor hashes : Nat) :
    Moves platform outer floor (acceptStatements platform statements) (At [] hashes)
      (At [] hashes) := by
  cases statements with
  | nil => exact moves_pure
  | cons statement rest =>
    exact (moves_acceptStatement statement outer floor hashes).bind
      (moves_acceptStatements rest outer floor hashes)

theorem builds_acceptNode (node : ProgramNode) : Builds platform (acceptNode platform node) := by
  cases node with
  | mk loc printed statements blockParam1 blockParam2 =>
    rw [acceptNode]
    refine builds_located loc (builds_acceptProgram blockParam1 blockParam2 _ fun outer => ?_)
    exact moves_acceptStatements statements outer 0 0

theorem builds_acceptNodeOption (node : Option ProgramNode) :
    ∀ body, acceptNodeOption platform node = some body → Builds platform body := by
  cases node with
  | none => exact fun body none => nomatch none
  | some node =>
    intro body same
    cases same
    exact builds_acceptNode node

end

/-- Whatever a compilation is given and however it ends, the compiler it leaves is sound. -/
theorem compileEx_sound (platform : Platform) (flags : Flags) (knownHelpers : List Str)
    (node : Option ProgramNode)
    (compiled : compileEx platform flags knownHelpers node = some compiler) :
    Sound platform [] compiler := by
  unfold compileEx at compiled
  cases node with
  | none =>
    cases compiled
    exact .fresh rfl rfl rfl rfl
  | some node =>
    have built : Proc.wp (acceptNode platform node) _ _ (start flags knownHelpers) :=
      builds_acceptNode node [] _ rfl rfl rfl rfl rfl
    unfold Proc.wp at built
    dsimp only at compiled
    cases ended : (acceptNode platform node (start flags knownHelpers)).1 with
    | ok value after =>
      rw [ended] at built compiled
      cases compiled
      exact built
    | thrown after =>
      rw [ended] at built compiled
      cases compiled
      exact built
    | aborted after =>
      rw [ended] at compiled
      cases compiled
    | exhausted after =>
      rw [ended] at compiled
      cases compiled

/-- What the serializer needs of a program tree, the compiler provides. -/
theorem compileEx_pushProgramsBelow (platform : Platform) (flags : Flags) (knownHelpers : List Str)
    (node : Option ProgramNode)
    (compiled : compileEx platform flags knownHelpers node = some compiler) :
    compiler.program.PushProgramsBelow := by
  have sound := compileEx_sound platform flags knownHelpers node compiled
  intro path inner found
  apply sound.below path
  rw [← codeAt_program, Program.codeAt, found]
  rfl

end Compiler

end HandlebarsC
