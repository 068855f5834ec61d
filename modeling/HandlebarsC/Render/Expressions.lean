import HandlebarsC.Render.Emits
import HandlebarsC.Render.Programs

/-!
The code of an expression puts on the stack what the expression means.
-/

namespace HandlebarsC

open Effect Compiler

namespace Render

variable {μ κ : Type} {stage : Stage μ κ} {view : View μ} {names : List BlockParamPair}
  {locs : List LocInfo} {loc : LocInfo} {fuel : Nat}

section Names

/-- A view in a program among these block parameters and nodes -/
structure Suits (stage : Stage μ κ) (names : List BlockParamPair) (locs : List LocInfo)
    (view : View μ) : Prop where
  inert : view.scope.Inert stage.owned
  fits : view.scope.Fits names
  depth : names.length ≤ stackSize
  hashes : view.hashes.length ≤ locs.length

theorem Suits.node (suits : Suits stage names locs view) : Suits stage names (loc :: locs) view :=
  { suits with hashes := Nat.le_succ_of_le suits.hashes }

theorem Suits.operands (suits : Suits stage names locs view) (operands : List (Value μ)) :
    Suits stage names locs { view with operands := operands } :=
  { suits with }

def View.push (view : View μ) (value : Value μ) : View μ :=
  { view with operands := value :: view.operands }

theorem Suits.push (suits : Suits stage names locs view) (value : Value μ) :
    Suits stage names locs (view.push value) :=
  { suits with }

theorem searchBlockParam_bounds {platform : Platform} {name : Str} {depth : Nat}
    (found : searchBlockParam platform name depth names = some (level, number)) :
    level < depth + names.length ∧ number ≤ 1 := by
  induction names generalizing depth with
  | nil => cases found
  | cons pair rest ih =>
    rw [searchBlockParam] at found
    rw [List.length_cons]
    split at found
    · cases found
      omega
    · split at found
      · cases found
        omega
      · have := ih found
        omega

theorem pathBlockParam_bounds {platform : Platform} {path : PathNode}
    (found : pathBlockParam platform names path = some (depth, number)) :
    depth < names.length ∧ number ≤ 1 := by
  unfold pathBlockParam at found
  split at found
  · unfold blockParamIndex at found
    split at found
    · cases found
    · have := searchBlockParam_bounds found
      omega
  · cases found

/-- The opcodes of a path -/
def pathCode (platform : Platform) (names : List BlockParamPair) (path : PathNode) : List Opcode :=
  [(pathContext path).place path.loc,
    (pathLookup path (pathBlockParam platform names path)).place path.loc]

theorem emits_path (path : PathNode) :
    Emits stage.mode module names locs (located path.loc (acceptPath stage.mode.platform path))
      fun _ _ code => code = pathCode stage.mode.platform names path := by
  refine emits_located fun _ => ?_
  unfold acceptPath
  refine (emits_recordUse path).silently fun _ => (emits_addDepth _).silently fun _ => ?_
  have look : ∀ found, (pathLookup path found).type ≠ .ret ∧
      (pathLookup path found).type ≠ .pushProgram := by
    intro found
    unfold pathLookup
    split
    · exact ⟨by simp [opcodeCtor], by simp [opcodeCtor]⟩
    · split
      · exact ⟨by simp [opcodeCtor], by simp [opcodeCtor]⟩
      · split <;> exact ⟨by simp [opcodeCtor], by simp [opcodeCtor]⟩
  refine Emits.bind (emits_plain (by simp [pathContext, opcodeCtor])
    (by simp [pathContext, opcodeCtor])) (fun _ => emits_read fun compiler inside => by
      rw [inside.bps]
      exact emits_plain (look _).1 (look _).2) ?_
  rintro _ _ table _ _ rfl rfl
  rfl

/-- A path puts its value on the stack. -/
theorem path_performs (path : PathNode) (suits : Suits stage names locs view)
    (room : view.operands.length < Stack.capacity) :
    Performs stage fuel (pathCode stage.mode.platform names path) view
      (pathValue stage.mode names view.scope path) (fun value next => next = view.push value) := by
  intro pc machine stands
  unfold pathCode perform
  refine Proc.does_read (Proc.does_ran rfl ?_)
  refine Proc.does_step (getContext_does stands path.depth rfl) ?_
  rintro _ after ⟨stands, selects⟩
  unfold perform
  refine Proc.does_read (Proc.does_ran rfl ?_)
  rw [← bind_pure (pathValue _ _ _ _)]
  have looked : ∀ {proc : Exec μ κ Unit} {result : Meaning (Value μ)},
      Does proc result (fun value _ after => Stands stage (view.push value) after) after →
      Proc.Does signs (proc >>= fun _ => perform stage.env (Exec.level stage.env fuel) (pc + 1 + 1) [])
        (result >>= pure) (fun value _ after => ∃ next, next = view.push value ∧
          Stands stage next after) after := by
    intro proc result does
    refine Proc.does_bind does ?_
    intro value _ last _ stands
    exact ⟨_, rfl, stands⟩
  refine looked ?_
  unfold pathValue pathLookup
  cases found : pathBlockParam stage.mode.platform names path with
  | some place =>
    obtain ⟨depth, number⟩ := place
    obtain ⟨deep, few⟩ := pathBlockParam_bounds found
    have := suits.depth
    exact lookupBlockParam_does stands suits.inert rfl rfl (by unfold stackSize at this; omega)
      (by omega) room
  | none =>
    cases parts : path.parts with
    | nil =>
      rw [if_pos (by rw [PathNode.idPart, parts]; rfl)]
      exact Proc.does_for _ (pushContext_does stands selects room)
    | cons first rest =>
      rw [if_neg (by rw [PathNode.idPart, parts]; simp)]
      dsimp only
      by_cases data : path.data
      · rw [if_pos data, if_pos data, ← parts]
        exact lookupData_does stands suits.inert suits.fits.nonempty parts rfl rfl rfl rfl room
      · rw [if_neg data, if_neg data, ← parts]
        exact lookupOnContext_does stands suits.inert parts rfl rfl rfl rfl selects room

end Names

section Codes

/-- Code that does what is meant, in any view that suits it and has room for so many operands -/
def Means (stage : Stage μ κ) (names : List BlockParamPair) (locs : List LocInfo) (width : Nat)
    (meaning : Scope μ → Meaning α) (post : View μ → α → View μ → Prop) (code : List Opcode) : Prop :=
  ∀ fuel view, 3 ≤ fuel → Suits stage names locs view →
    view.operands.length + width ≤ Stack.capacity →
    Performs stage fuel code view (meaning view.scope) (post view)

/-- A body of the compiler that emits such code -/
def Codes (stage : Stage μ κ) (names : List BlockParamPair) (locs : List LocInfo)
    (body : Compile Unit) (width : Nat) (meaning : Scope μ → Meaning α)
    (post : View μ → α → View μ → Prop) : Prop :=
  Emits stage.mode (stage.env.module stage.module) names locs body fun _ _ =>
    Means stage names locs width meaning post

/-- One operand -/
def Put (view : View μ) (value : Value μ) (next : View μ) : Prop := next = view.push value

/-- The values of a list, the last on top -/
def PutAll (view : View μ) (values : List (Value μ)) (next : View μ) : Prop :=
  next = { view with operands := values.reverse ++ view.operands }

/-- A map of entries -/
def PutMap (view : View μ) (entries : StrMap (Value μ)) (next : View μ) : Prop :=
  ∃ hash, IsMap entries hash ∧ next = view.push hash

variable {width : Nat} {meaning : Scope μ → Meaning α} {post : View μ → α → View μ → Prop}

theorem Codes.located {body : Compile Unit}
    (codes : Codes stage names (loc :: locs) body width meaning post) :
    Codes stage names locs (located loc body) width meaning post := by
  refine emits_located fun _ => codes.mono ?_
  intro _ table code means fuel view enough suits room
  exact means fuel view enough suits.node room

/-- One opcode that names no program -/
theorem codes_opcode {op : Opcode} (running : op.type ≠ .ret) (plain : op.type ≠ .pushProgram)
    (does : ∀ fuel view machine, Suits stage names (loc :: locs) view →
      view.operands.length + width ≤ Stack.capacity → Stands stage view machine →
      Does (Exec.acceptOpcode stage.env (Exec.level stage.env fuel) (op.place loc))
        (meaning view.scope) (fun value _ after => ∃ next, post view value next ∧
          Stands stage next after) machine) :
    Codes stage names (loc :: locs) (opcode op) width meaning post := by
  refine (emits_plain running plain).mono ?_
  rintro _ table _ rfl fuel view - suits room
  exact performs_one fun machine stands => does fuel view machine suits room stands

theorem Means.fail {front : List Opcode} {failure : Failure}
    (means : Means stage names locs width (fun _ => .error failure : Scope μ → Meaning α) post front)
    (code : List Opcode) :
    Means stage names locs width (fun _ => .error failure) post (front ++ code) :=
  fun fuel view enough suits room => (means fuel view enough suits room).failed code

end Codes

section Literals

variable (platform : Platform) (value : Str)

theorem codes_pushLiteral {operand : Operand} {literal : Value μ}
    (same : Exec.literalValue operand = some literal) :
    Codes stage names (loc :: locs) (opcode { opcodeCtor .pushLiteral with op1 := operand }) 1
      (fun _ => pure literal) Put := by
  refine codes_opcode (by simp [opcodeCtor]) (by simp [opcodeCtor]) ?_
  intro fuel view machine suits room stands
  refine Proc.does_mono (pushLiteral_does same stands room) ?_
  exact fun _ _ _ stands => ⟨_, rfl, stands⟩

theorem codes_textLiteral :
    Codes stage names (loc :: locs) (opS .pushLiteral value) 1
      (fun _ => pure (textLiteral value)) Put := by
  refine codes_pushLiteral ?_
  unfold Exec.literalValue textLiteral
  dsimp only
  split <;> rfl

theorem codes_acceptLiteral (type : LiteralType) :
    Codes stage names (loc :: locs) (acceptLiteral stage.mode.platform type value) 1
      (fun _ => pure (literalValue stage.mode.platform type value)) Put := by
  cases type with
  | boolean => exact codes_pushLiteral rfl
  | nul => exact codes_pushLiteral (by simp [Exec.literalValue, literalValue])
  | undefined => exact codes_pushLiteral (by simp [Exec.literalValue, literalValue])
  | string =>
    refine codes_opcode (by simp [opcodeCtor]) (by simp [opcodeCtor]) ?_
    intro fuel view machine suits room stands
    refine Proc.does_mono (pushString_does rfl stands room) ?_
    exact fun _ _ _ stands => ⟨_, rfl, stands⟩
  | number =>
    unfold acceptLiteral acceptNumber literalValue
    dsimp only
    split
    · exact codes_pushLiteral rfl
    · cases stage.mode.platform.numberLong value with
      | none => exact codes_textLiteral value
      | some number => exact codes_pushLiteral rfl

theorem codes_acceptName (name : HelperName) :
    Codes stage names locs (acceptName stage.mode.platform name) 1
      (fun scope => nameValue stage.mode names scope name) Put := by
  cases name with
  | path path =>
    refine (emits_path path).mono ?_
    rintro _ table _ rfl fuel view - suits room
    exact path_performs path suits room
  | literal type literalLoc value => exact (codes_acceptLiteral value type).located

end Literals

section Programs

/-- The programs of a block do what its blocks are for. -/
structure Blocks (stage : Stage μ κ) (names : List BlockParamPair) (bound : Nat)
    (operands hashes : List (Value μ)) (programNumber inverseNumber : Int)
    (program inverse : Body μ) : Prop where
  program : ∀ fuel, bound ≤ fuel →
    Carries stage names operands hashes (Exec.level stage.env fuel) programNumber program
  inverse : ∀ fuel, bound ≤ fuel →
    Carries stage names operands hashes (Exec.level stage.env fuel) inverseNumber inverse

/-- There are no blocks. -/
theorem blocks_none (operands hashes : List (Value μ)) :
    Blocks stage names 1 operands hashes (-1) (-1) noBody noBody :=
  ⟨fun _ => carries_none stage names operands hashes,
    fun _ => carries_none stage names operands hashes⟩

/-- The opcodes that push the numbers of two programs -/
def PushesPair (stage : Stage μ κ) (programGuid inverseGuid : Int) (table : List Nat)
    (code : List Opcode) : Prop :=
  ∀ fuel (view : View μ), view.operands.length + 2 ≤ Stack.capacity →
    Performs stage fuel code view (.ok ()) fun _ next => next =
      (view.push (.integer (globalGuid table programGuid))).push
        (.integer (globalGuid table inverseGuid))

theorem emits_pushProgram (stage : Stage μ κ) (guid : Int) :
    Emits stage.mode module names (loc :: locs) (pushProgram guid) fun _ table code =>
      ∀ fuel (view : View μ), view.operands.length < Stack.capacity →
        Performs stage fuel code view (.ok ()) fun _ next => next =
          view.push (.integer (globalGuid table guid)) := by
  unfold pushProgram globalGuid
  split
  · refine (emits_opcode _ (by simp [opcodeCtor])).mono ?_
    rintro _ table _ rfl fuel view room
    exact performs_to fun machine stands => pushProgram_does rfl stands room
  · refine (emits_opcode _ (by simp [opcodeCtor])).mono ?_
    rintro _ table _ rfl fuel view room
    exact performs_to fun machine stands => pushProgram_does rfl stands room

theorem emits_pushProgramPair (programGuid inverseGuid : Int) :
    Emits stage.mode module names (loc :: locs) (pushProgramPair programGuid inverseGuid)
      fun _ => PushesPair stage programGuid inverseGuid := by
  refine (emits_pushProgram stage programGuid).bind
    (fun _ => emits_pushProgram stage inverseGuid) ?_
  intro _ _ table front code first second fuel view room
  refine Performs.after ?_ (first fuel view (by omega))
  rintro _ rfl
  exact second fuel _ (by rw [View.push, List.length_cons]; omega)

end Programs

section Helpers

variable {arguments : Arguments} {argsWidth hashWidth : Nat}
  {args : Scope μ → Meaning (List (Value μ))} {hash : Scope μ → Meaning (StrMap (Value μ))}
  {path : PathNode} {programGuid inverseGuid : Int}

/-- The parts of a node that are its arguments do what they mean. -/
structure ArgumentsCode (stage : Stage μ κ) (names : List BlockParamPair) (locs : List LocInfo)
    (arguments : Arguments) (argsWidth hashWidth : Nat) (args : Scope μ → Meaning (List (Value μ)))
    (hash : Scope μ → Meaning (StrMap (Value μ))) : Prop where
  params : Codes stage names locs arguments.params argsWidth args PutAll
  pairs : ∀ body, arguments.hash = some body → Codes stage names locs body hashWidth hash PutMap
  noHash : arguments.hash = none → ∀ scope, hash scope = pure []
  hashWidth : 1 ≤ hashWidth
  count : ∀ scope values, args scope = .ok values → values.length = arguments.count
  inert : ∀ scope values, scope.Inert stage.owned → args scope = .ok values →
    ∀ value ∈ values, value.Inert stage.owned

theorem codes_emptyHash :
    Codes stage names (loc :: locs) (opN .emptyHash) 1 (fun _ => pure []) PutMap := by
  refine codes_opcode (by simp [opcodeCtor]) (by simp [opcodeCtor]) ?_
  intro fuel view machine suits room stands
  refine Proc.does_for _ (Proc.does_mono (emptyHash_does stands room) ?_)
  rintro _ _ after ⟨hash, isMap, stands⟩
  exact ⟨_, ⟨hash, isMap, rfl⟩, stands⟩

theorem Codes.widen {body : Compile Unit} {meaning : Scope μ → Meaning α}
    {post : View μ → α → View μ → Prop} (codes : Codes stage names locs body width meaning post)
    (wider : width ≤ more) : Codes stage names locs body more meaning post := by
  refine Emits.mono codes ?_
  intro _ table code means fuel view enough suits room
  exact means fuel view enough suits (by omega)

theorem ArgumentsCode.hashCode
    (ready : ArgumentsCode stage names (loc :: locs) arguments argsWidth hashWidth args hash) :
    Codes stage names (loc :: locs)
      (arguments.hash.getD (opN .emptyHash)) hashWidth hash PutMap := by
  cases given : arguments.hash with
  | some body => exact ready.pairs body given
  | none =>
    rw [show hash = fun _ => pure [] from funext (ready.noHash given)]
    exact codes_emptyHash.widen ready.hashWidth

/-- The operands of a call -/
def callWidth (count argsWidth hashWidth : Nat) : Nat := max argsWidth (count + max (2 + hashWidth) 4)

/-- The code that prepares a call, in its three parts -/
def Prepares (stage : Stage μ κ) (names : List BlockParamPair) (locs : List LocInfo)
    (argsWidth hashWidth : Nat) (args : Scope μ → Meaning (List (Value μ)))
    (hash : Scope μ → Meaning (StrMap (Value μ))) (programGuid inverseGuid : Int) :
    List Nat → List Opcode → Prop :=
  Parts (fun _ => Means stage names locs argsWidth args PutAll)
    (Parts (PushesPair stage programGuid inverseGuid)
      fun _ => Means stage names locs hashWidth hash PutMap)

theorem emits_setup
    (ready : ArgumentsCode stage names (loc :: locs) arguments argsWidth hashWidth args hash)
    (programGuid inverseGuid : Int) :
    Emits stage.mode (stage.env.module stage.module) names (loc :: locs)
      (setupFullMustacheParams arguments programGuid inverseGuid false)
      fun _ => Prepares stage names (loc :: locs) argsWidth hashWidth args hash programGuid
        inverseGuid := by
  have whole : setupFullMustacheParams arguments programGuid inverseGuid false = (do
      arguments.params
      pushProgramPair programGuid inverseGuid
      arguments.hash.getD (opN .emptyHash)) := by
    unfold setupFullMustacheParams
    cases arguments.hash <;> rfl
  rw [whole]
  exact Emits.seq ready.params fun _ => Emits.seq (emits_pushProgramPair _ _) fun _ => ready.hashCode

/-- All that a call needs is on the stack, and what follows knows it. -/
theorem Prepares.performs {front rest : List Opcode} {table : List Nat}
    {next : List (Value μ) → StrMap (Value μ) → Meaning α} {post : α → View μ → Prop}
    (ready : ArgumentsCode stage names locs arguments argsWidth hashWidth args hash)
    (prepares : Prepares stage names locs argsWidth hashWidth args hash programGuid inverseGuid
      table front) (enough : 3 ≤ fuel) (suits : Suits stage names locs view)
    (room : view.operands.length + callWidth arguments.count argsWidth hashWidth ≤ Stack.capacity)
    (later : ∀ values entries map, args view.scope = .ok values → hash view.scope = .ok entries →
      IsMap entries map →
      Performs stage fuel rest { view with
        operands := callOperands map (globalGuid table programGuid) (globalGuid table inverseGuid)
          values view.operands } (next values entries) post) :
    Performs stage fuel (front ++ rest) view (do
      let values ← args view.scope
      let entries ← hash view.scope
      next values entries) post := by
  obtain ⟨params, _, rfl, meansParams, pair, hashes, rfl, pushes, meansHash⟩ := prepares
  unfold callWidth at room
  rw [List.append_assoc, List.append_assoc]
  refine (meansParams fuel view enough suits (by omega)).append ?_
  rintro values _ made rfl
  have count := ready.count view.scope values made
  refine Performs.after ?_ (pushes fuel _ ?_)
  · rintro _ rfl
    refine (meansHash fuel _ enough (((suits.operands _).push _).push _) ?_).append ?_
    · simp only [View.push, List.length_cons, List.length_append, List.length_reverse]
      omega
    · rintro entries _ found ⟨map, isMap, rfl⟩
      exact later values entries map made found isMap
  · rw [List.length_append, List.length_reverse]
    omega

/-- The code that invokes a helper whose call is prepared -/
def Invokes (stage : Stage μ κ) (names : List BlockParamPair) (loc : LocInfo) (path : PathNode)
    (count : Nat) (code : List Opcode) : Prop :=
  ((stage.mode.compiler names).isKnownHelper path = true ∧ ∃ name, path.idPart = some name ∧
    code = [{ opcodeCtor .invokeKnownHelper with
      op1 := .long count, op2 := .string name, loc := loc }]) ∨
  ((stage.mode.compiler names).isKnownHelper path = false ∧ ∃ original,
    path.original = some original ∧
    code = pathCode stage.mode.platform names { path with falsy := true, strict := true } ++
      [{ opcodeCtor .invokeHelper with
        op1 := .long count, op2 := .string original, op3 := .boolean path.simpleId, loc := loc }])

theorem Inside.isKnownHelper {compiler : Compiler} (inside : Inside stage.mode names locs compiler)
    (path : PathNode) :
    compiler.isKnownHelper path = (stage.mode.compiler names).isKnownHelper path := by
  unfold Compiler.isKnownHelper Mode.compiler
  rw [inside.knownHelpers]

theorem Inside.kind {compiler : Compiler} (inside : Inside stage.mode names locs compiler)
    (path : PathNode) (isHelperExpression : Bool) :
    classifySexpr stage.mode.platform compiler path isHelperExpression =
      kind stage.mode names path isHelperExpression := by
  unfold Render.kind classifySexpr
  rw [inside.isKnownHelper path, inside.bps, inside.flags]
  rfl

theorem emits_acceptSexprHelper
    (ready : ArgumentsCode stage names (loc :: locs) arguments argsWidth hashWidth args hash)
    (path : PathNode) (programGuid inverseGuid : Int) :
    Emits stage.mode (stage.env.module stage.module) names (loc :: locs)
      (acceptSexprHelper stage.mode.platform path arguments programGuid inverseGuid)
      fun _ => Parts (Prepares stage names (loc :: locs) argsWidth hashWidth args hash programGuid
        inverseGuid) fun _ => Invokes stage names loc path arguments.count := by
  unfold acceptSexprHelper
  refine Emits.seq (emits_setup ready _ _) fun _ => emits_read fun compiler inside => ?_
  rw [id_eq, inside.isKnownHelper path]
  split
  · rename_i known
    refine emits_nonnull fun name present => ?_
    refine (emits_plain (by simp [opcodeCtor]) (by simp [opcodeCtor])).mono ?_
    rintro _ table _ rfl
    exact .inl ⟨known, name, present, rfl⟩
  · rename_i unknown
    split
    · exact emits_nonnull fun name _ => emits_raise _
    · refine Emits.bind (emits_path _) (fun _ => emits_nonnull fun original present =>
        (Emits.mono (emits_plain (by simp [opcodeCtor]) (by simp [opcodeCtor])) ?_ :
          Emits _ _ _ _ _ fun _ _ code => ∃ original, path.original = some original ∧ code =
            [{ opcodeCtor .invokeHelper with
              op1 := .long arguments.count, op2 := .string original, op3 := .boolean path.simpleId
              loc := loc }])) ?_
      · rintro _ table _ rfl
        exact ⟨original, present, rfl⟩
      · rintro _ _ table _ _ rfl ⟨original, present, rfl⟩
        exact .inr ⟨by simpa using unknown, original, present, rfl⟩

/-- What is known of a call in hand -/
structure Calling (stage : Stage μ κ) (names : List BlockParamPair) (locs : List LocInfo)
    (bound fuel : Nat) (view : View μ) (programNumber inverseNumber : Int)
    (program inverse : Body μ) : Prop where
  suits : Suits stage names locs view
  enough : bound + 2 ≤ fuel
  room : view.operands.length + 4 ≤ Stack.capacity
  blocks : Blocks stage names bound view.operands view.hashes programNumber inverseNumber program
    inverse

variable {programNumber inverseNumber : Int} {program inverse : Body μ} {bound : Nat}

theorem Calling.prepared (call : Invocation μ)
    (calling : Calling stage names locs bound fuel view programNumber inverseNumber call.program
      call.inverse) (args : ∀ value ∈ call.args, value.Inert stage.owned) :
    Prepared stage names bound fuel view view.operands programNumber inverseNumber call where
  program := calling.blocks.program
  inverse := calling.blocks.inverse
  args := args
  fits := calling.suits.fits
  inert := calling.suits.inert
  enough := calling.enough
  room := by have := calling.room; omega

/-- A prepared call of a helper puts on the stack what it means. -/
theorem Invokes.performs {code : List Opcode} {values : List (Value μ)} {entries : StrMap (Value μ)}
    {map : Value μ} (invokes : Invokes stage names loc path count code)
    (calling : Calling stage names locs bound fuel view programNumber inverseNumber program inverse)
    (given : values.length = count) (inert : ∀ value ∈ values, value.Inert stage.owned)
    (isMap : IsMap entries map)
    (room : view.operands.length + (count + 4) ≤ Stack.capacity) :
    Performs stage fuel code { view with
        operands := callOperands map programNumber inverseNumber values view.operands }
      (helperValue stage.mode names view.scope loc path values entries program inverse)
      (Put view) := by
  subst given
  unfold helperValue
  rcases invokes with ⟨known, name, present, rfl⟩ | ⟨unknown, original, present, rfl⟩
  · rw [if_pos known, present]
    have prepared := calling.prepared ⟨some name, values, entries, program, inverse⟩ inert
    dsimp only [Option.getD_some]
    cases found : builtinsFind name with
    | some builtin =>
      exact performs_to fun machine stands =>
        prepared.invokeKnownHelper isMap found rfl rfl rfl stands
    | none =>
      exact performs_one fun machine stands =>
        prepared.invokeUnknownHelper isMap found rfl rfl rfl stands
  · rw [if_neg (by simp [unknown]), present]
    have prepared :=
      calling.prepared ⟨some original, values, entries, program, inverse⟩ inert
    have suits : Suits stage names locs { view with
        operands := callOperands map programNumber inverseNumber values view.operands } :=
      calling.suits.operands _
    refine (path_performs _ suits ?_).append ?_
    · simp only [callOperands, List.length_cons, List.length_append, List.length_reverse]
      omega
    · rintro value _ looked rfl
      have inside : value.Inert stage.owned := pathValue_all calling.suits.inert.toAll looked
      unfold namedBuiltin
      rw [present, Option.bind_some]
      exact performs_to fun machine stands =>
        prepared.invokeHelper isMap inside rfl rfl rfl rfl stands

/-- A helper with its arguments -/
theorem helper_performs {code : List Opcode} {table : List Nat}
    (ready : ArgumentsCode stage names locs arguments argsWidth hashWidth args hash)
    (emitted : Parts (Prepares stage names locs argsWidth hashWidth args hash programGuid
      inverseGuid) (fun _ => Invokes stage names loc path arguments.count) table code)
    (calling : Calling stage names locs bound fuel view (globalGuid table programGuid)
      (globalGuid table inverseGuid) program inverse) (deep : 1 ≤ bound)
    (room : view.operands.length + callWidth arguments.count argsWidth hashWidth ≤ Stack.capacity) :
    Performs stage fuel code view (callHelper stage.mode names view.scope loc path (args view.scope)
      (hash view.scope) program inverse) (Put view) := by
  obtain ⟨front, rest, rfl, prepares, invokes⟩ := emitted
  have enough : 3 ≤ fuel := by have := calling.enough; omega
  refine prepares.performs ready enough calling.suits room ?_
  intro values entries map made found isMap
  refine invokes.performs calling (ready.count _ _ made)
    (ready.inert _ _ calling.suits.inert made) isMap ?_
  unfold callWidth at room
  omega

end Helpers

section Values

variable {path : PathNode} {programGuid inverseGuid : Int} {programNumber inverseNumber : Int}
  {program inverse : Body μ} {bound : Nat}

theorem codes_acceptSexprSimple (path : PathNode) :
    Codes stage names (loc :: locs) (acceptSexprSimple stage.mode.platform path) 1
      (fun scope => pathValue stage.mode names scope { path with strict := true }) Put := by
  unfold acceptSexprSimple
  refine Emits.bind (emits_path _)
    (fun _ => emits_plain (by simp [opcodeCtor]) (by simp [opcodeCtor])) ?_
  rintro _ _ table _ _ rfl rfl fuel view - suits room
  dsimp only
  rw [← bind_pure (pathValue _ _ _ _)]
  refine (path_performs _ suits (by omega)).append ?_
  rintro value _ looked rfl
  have inside : value.Inert stage.owned := pathValue_all suits.inert.toAll looked
  refine performs_to fun machine stands => Proc.does_for value ?_
  exact resolvePossibleLambda_does inside (by omega) stands

/-- The helpers of the library are known. -/
theorem contains_builtinsNames (found : builtinsFind name = some builtin) :
    builtinsNames.contains name = true := by
  by_contra absent
  have apart : name ∉ builtinsNames := by simpa using absent
  simp only [builtinsNames, List.map_cons, List.map_nil, List.mem_cons, List.not_mem_nil, or_false,
    not_or] at apart
  simp [builtinsFind, apart] at found

theorem builtinsFind_unknown {mode : Mode} {name : Str} (present : path.idPart = some name)
    (unknown : (mode.compiler names).isKnownHelper path = false) : builtinsFind name = none := by
  cases found : builtinsFind name with
  | none => rfl
  | some builtin =>
    unfold Compiler.isKnownHelper at unknown
    rw [present] at unknown
    dsimp only at unknown
    rw [contains_builtinsNames found] at unknown
    cases unknown

/-- An ambiguous name is that of no helper. -/
theorem unknown_of_ambig {mode : Mode} {isHelperExpression : Bool}
    (ambig : kind mode names path isHelperExpression = .ambig) :
    (mode.compiler names).isKnownHelper path = false := by
  unfold kind classifySexpr at ambig
  dsimp only at ambig
  split at ambig
  · cases ambig
  · split at ambig
    · split at ambig
      · cases ambig
      · rename_i unknown
        simpa using unknown
    · cases ambig

/-- The code for an ambiguous name -/
def Ambiguous (stage : Stage μ κ) (names : List BlockParamPair) (loc : LocInfo) (path : PathNode)
    (programGuid inverseGuid : Int) : List Nat → List Opcode → Prop :=
  Parts (fun _ code => code = [{ opcodeCtor .getContext with op1 := .long path.depth, loc := loc }])
    (Parts (PushesPair stage programGuid inverseGuid)
      (Parts (fun _ code => code = pathCode stage.mode.platform names { path with strict := true })
        fun _ code => ∃ name opcode, path.idPart = some name ∧ code = [opcode] ∧
          opcode.type = .invokeAmbiguous ∧ opcode.op1 = .string name))

theorem emits_acceptSexprAmbiguous (path : PathNode) (programGuid inverseGuid : Int)
    (printed : Option Str) :
    Emits stage.mode module names (loc :: locs)
      (acceptSexprAmbiguous stage.mode.platform path programGuid inverseGuid printed)
      fun _ => Ambiguous stage names loc path programGuid inverseGuid := by
  unfold acceptSexprAmbiguous
  refine Emits.seq (emits_plain (by simp [opcodeCtor]) (by simp [opcodeCtor])) fun _ =>
    Emits.seq (emits_pushProgramPair _ _) fun _ => Emits.seq (emits_path _) fun _ =>
    emits_read fun compiler inside => emits_nonnull fun name present =>
    (emits_plain (by simp [opcodeCtor]) (by simp [opcodeCtor])).mono ?_
  rintro _ table _ rfl
  exact ⟨name, _, present, rfl, rfl, rfl⟩

/-- An ambiguous name puts its value on the stack. -/
theorem ambiguous_performs {code : List Opcode} {table : List Nat}
    (emitted : Ambiguous stage names loc path programGuid inverseGuid table code)
    (calling : Calling stage names locs bound fuel view (globalGuid table programGuid)
      (globalGuid table inverseGuid) program inverse)
    (unknown : (stage.mode.compiler names).isKnownHelper path = false) :
    Performs stage fuel code view
      (pathValue stage.mode names view.scope { path with strict := true }) (Put view) := by
  obtain ⟨_, _, rfl, rfl, pair, _, rfl, pushes, _, _, rfl, rfl, name, opcode, present, rfl, type,
    op1⟩ := emitted
  have room := calling.room
  have fetched : Performs stage fuel
      [{ opcodeCtor .getContext with op1 := .long path.depth, loc := loc }] view (.ok ())
      (fun _ next => next = view) := by
    refine performs_to fun machine stands => ?_
    exact Proc.does_mono (getContext_does stands path.depth rfl)
      fun _ _ _ found => found.1
  refine Performs.after ?_ fetched
  rintro _ rfl
  refine Performs.after ?_ (pushes fuel _ (by omega))
  rintro _ rfl
  rw [← bind_pure (pathValue _ _ _ _)]
  refine (path_performs _ ((calling.suits.push _).push _) ?_).append ?_
  · simp only [View.push, List.length_cons]
    omega
  · rintro value _ looked rfl
    have inside : value.Inert stage.owned := pathValue_all calling.suits.inert.toAll looked
    have prepared := calling.prepared ⟨some name, [], [], program, inverse⟩ (by simp)
    refine performs_to fun machine stands => Proc.does_for value ?_
    have does := prepared.invokeAmbiguous ⟨rfl, rfl⟩ inside
      (builtinsFind_unknown present unknown) op1 (by omega) stands
    unfold Exec.acceptOpcode
    rw [type]
    exact does

end Values

section Nested

variable {arguments : Arguments} {argsWidth hashWidth : Nat}
  {args : Scope μ → Meaning (List (Value μ))} {hash : Scope μ → Meaning (StrMap (Value μ))}

theorem callWidth_ge (count argsWidth hashWidth : Nat) : 4 ≤ callWidth count argsWidth hashWidth := by
  unfold callWidth
  omega

/-- An expression that is not a block -/
theorem codes_acceptSexpr
    (ready : ArgumentsCode stage names (loc :: locs) arguments argsWidth hashWidth args hash)
    (path : PathNode) (isHelperExpression : Bool) :
    Codes stage names (loc :: locs)
      (acceptSexpr stage.mode.platform path arguments isHelperExpression)
      (callWidth arguments.count argsWidth hashWidth) (fun scope =>
        expression stage.mode names scope loc path (args scope) (hash scope) isHelperExpression)
      Put := by
  unfold acceptSexpr
  refine emits_read fun compiler inside => ?_
  rw [id_eq, inside.kind path isHelperExpression]
  unfold expression
  have wide := callWidth_ge arguments.count argsWidth hashWidth
  cases sort : kind stage.mode names path isHelperExpression with
  | helper =>
    refine (emits_acceptSexprHelper ready path (-1) (-1)).mono ?_
    intro _ table code emitted fuel view enough suits room
    exact helper_performs ready emitted ⟨suits, enough, by omega, blocks_none _ _⟩ le_rfl room
  | simple => exact (codes_acceptSexprSimple path).widen (by omega)
  | ambig =>
    refine (emits_acceptSexprAmbiguous path (-1) (-1) none).mono ?_
    intro _ table code emitted fuel view enough suits room
    exact ambiguous_performs emitted ⟨suits, enough, by omega, blocks_none _ _⟩
      (unknown_of_ambig sort)

/-- An option of the compiler may replace a parameter by an opcode that the VM does not handle. -/
theorem codes_pushParam {accept : Compile Unit} {value : Scope μ → Meaning (Value μ)}
    (codes : Codes stage names (loc :: locs) accept width value Put) (param : Param) :
    Codes stage names (loc :: locs) (pushParam stage.mode.platform param accept) width
      (fun scope => argument stage.mode (value scope)) Put := by
  have unhandledAt : ∀ {op : Opcode} {type : OpcodeType}, op.type = type →
      (type = .pushStringParam ∨ type = .pushId) → ∀ (rest : List Opcode) (fuel : Nat) (view : View μ),
      Performs stage fuel ([op] ++ rest) view (unhandled type) (Put view) := by
    rintro op _ rfl other rest fuel view
    refine Performs.failed ?_ rest
    exact performs_one fun machine stands => unhandled_does other stands
  unfold pushParam argument
  refine emits_read fun compiler inside => ?_
  rw [inside.flags]
  split
  · unfold pushStringParam
    refine (emits_addDepth _).silently fun _ => ?_
    refine Emits.bind (emits_plain (by simp [opcodeCtor]) (by simp [opcodeCtor]))
      (fun _ => emits_nonnull fun string _ => (Emits.bind
        (emits_plain (by simp [opcodeCtor]) (by simp [opcodeCtor]))
        (fun _ => (emits_when (fun _ => codes.mono fun _ _ _ _ => trivial) (fun _ _ => trivial) :
          Emits _ _ _ _ _ fun _ _ _ => True)) ?_ :
        Emits _ _ _ _ _ fun _ _ code => ∃ op rest, op.type = .pushStringParam ∧ code = [op] ++ rest)) ?_
    · rintro _ _ table _ code rfl -
      exact ⟨_, code, rfl, rfl⟩
    · rintro _ _ table _ _ rfl ⟨op, rest, type, rfl⟩ fuel view - suits room
      refine Performs.after ?_ (?_ : Performs _ _ _ _ (.ok ()) fun _ next => next = view)
      · rintro _ rfl
        exact unhandledAt type (.inl rfl) rest fuel _
      · refine performs_to fun machine stands => ?_
        exact Proc.does_mono (getContext_does stands (paramDepth param) rfl)
          fun _ _ _ found => found.1
  · split
    · rename_i tracked
      rw [tracked]
      refine Emits.bind (emits_when (fun _ => ?_) (fun never => by cases never) :
        Emits _ _ _ _ _ fun _ _ code => ∃ op : Opcode, op.type = .pushId ∧ code = [op])
        (fun _ => codes) ?_
      · unfold pushId
        refine emits_read fun compiler _ => ?_
        split
        · refine (emits_plain (by simp [opcodeCtor]) (by simp [opcodeCtor])).mono ?_
          rintro _ table _ rfl
          exact ⟨_, rfl, rfl⟩
        · refine emits_nonnull fun string _ => ?_
          refine (emits_plain (by simp [opcodeCtor]) (by simp [opcodeCtor])).mono ?_
          rintro _ table _ rfl
          exact ⟨_, rfl, rfl⟩
      · rintro _ _ table _ code ⟨op, type, rfl⟩ - fuel view - suits room
        exact unhandledAt type (.inr rfl) code fuel view
    · rename_i untracked
      rw [show stage.mode.compileFlags.has Flag.trackIds = false by simpa using untracked]
      exact codes

/-- Where the values of a hash come from the stack -/
theorem emits_assignToHash (keys : List Str) :
    Emits stage.mode module names (loc :: locs) (keys.forM (opS .assignToHash)) fun _ _ code =>
      code = keys.map fun key => { opcodeCtor .assignToHash with op1 := .string key, loc := loc } := by
  induction keys with
  | nil => exact emits_pure fun _ => rfl
  | cons key rest ih =>
    refine Emits.bind (emits_plain (by simp [opcodeCtor]) (by simp [opcodeCtor])) (fun _ => ih) ?_
    rintro _ _ table _ _ rfl rfl
    rfl

theorem assignToHash_performs (pairs : List (Str × Value μ)) (entries : StrMap (Value μ))
    {hash : Value μ} {hashes : List (Value μ)} (isMap : IsMap entries hash)
    (few : entries.length + pairs.length ≤ Exec.hashCapacity) (room : hashes.length < Stack.capacity) :
    Performs stage fuel (pairs.map fun pair =>
        { opcodeCtor .assignToHash with op1 := .string pair.1, loc := loc })
      { view with
        operands := pairs.map Prod.snd ++ view.operands
        hashes := hash :: hashes } (.ok ())
      fun _ next => ∃ hash, IsMap (StrMap.updateAll stage.mode.platform.hash entries pairs) hash ∧
        next = { view with hashes := hash :: hashes } := by
  induction pairs generalizing entries hash with
  | nil => exact performs_nil ⟨hash, isMap, rfl⟩
  | cons pair rest ih =>
    obtain ⟨key, value⟩ := pair
    rw [List.length_cons] at few
    refine Performs.after ?_ (?_ : Performs _ _ [_] _ (.ok ()) fun _ next => ∃ hash, IsMap
      (StrMap.update stage.mode.platform.hash entries key value) hash ∧ next = { view with
        operands := rest.map Prod.snd ++ view.operands
        hashes := hash :: hashes })
    · rintro _ ⟨hash, isMap, rfl⟩
      rw [StrMap.updateAll_cons]
      refine ih _ isMap ?_
      rw [StrMap.length_update]
      split <;> omega
    · refine performs_one fun machine stands => ?_
      refine Proc.does_mono (assignToHash_does rfl isMap (by omega) room stands) ?_
      rintro _ _ after ⟨hash, isMap, stands⟩
      exact ⟨_, ⟨hash, isMap, rfl⟩, stands⟩

end Nested

section Arguments

mutual

/-- The operands that a parameter takes at most -/
def paramWidth : Param → Nat
  | .name _ => 1
  | .sexpr _ _ params hash =>
    callWidth params.length (paramsWidth params) (hashOptionWidth hash)

def paramsWidth : List Param → Nat
  | [] => 0
  | param :: rest => max (paramWidth param) (1 + paramsWidth rest)

def hashOptionWidth : Option HashNode → Nat
  | none => 1
  | some hash => hashNodeWidth hash

def hashNodeWidth : HashNode → Nat
  | .mk _ pairs => max 1 (pairsWidth pairs)

def pairsWidth : List HashPair → Nat
  | [] => 0
  | .mk _ value :: rest => max (paramWidth value) (1 + pairsWidth rest)

end

def argumentsWidth (params : List Param) (hash : Option HashNode) : Nat :=
  callWidth params.length (paramsWidth params) (hashOptionWidth hash)

mutual

/-- No hash has more pairs than the map for it has places. -/
def paramFits : Param → Bool
  | .name _ => true
  | .sexpr _ _ params hash => paramsFit params && hashOptionFits hash

def paramsFit : List Param → Bool
  | [] => true
  | param :: rest => paramFits param && paramsFit rest

def hashOptionFits : Option HashNode → Bool
  | none => true
  | some hash => hashNodeFits hash

def hashNodeFits : HashNode → Bool
  | .mk _ pairs => decide (pairs.length ≤ Exec.hashCapacity) && pairsFit pairs

def pairsFit : List HashPair → Bool
  | [] => true
  | .mk _ value :: rest => paramFits value && pairsFit rest

end

/-- The stack has room for the operands of these arguments, and the maps for their hashes. -/
def argumentsFit (params : List Param) (hash : Option HashNode) : Bool :=
  decide (argumentsWidth params hash ≤ Stack.capacity) && paramsFit params && hashOptionFits hash

theorem hashOptionWidth_pos (hash : Option HashNode) : 1 ≤ hashOptionWidth hash := by
  cases hash with
  | none => exact le_rfl
  | some hash =>
    obtain ⟨loc, pairs⟩ := hash
    exact le_max_left 1 _

theorem paramValues_length {mode : Mode} {scope : Scope μ} {params : List Param}
    (meant : paramValues mode names scope params = .ok values) : values.length = params.length := by
  induction params generalizing values with
  | nil =>
    cases meant
    rfl
  | cons param rest ih =>
    rw [paramValues] at meant
    cases first : argument mode (paramValue mode names scope param) with
    | error failure =>
      rw [first] at meant
      cases meant
    | ok value =>
      cases others : paramValues mode names scope rest with
      | error failure =>
        rw [first, others] at meant
        cases meant
      | ok later =>
        rw [first, others] at meant
        cases meant
        exact congrArg (· + 1) (ih others)

theorem length_pairKeys (pairs : List HashPair) : (pairKeys pairs).length = pairs.length := by
  induction pairs with
  | nil => rfl
  | cons pair rest ih =>
    obtain ⟨key, value⟩ := pair
    exact congrArg (· + 1) ih

theorem pairValues_keys {mode : Mode} {scope : Scope μ} {pairs : List HashPair}
    (meant : pairValues mode names scope pairs = .ok values) :
    values.map Prod.fst = pairKeys pairs := by
  induction pairs generalizing values with
  | nil =>
    cases meant
    rfl
  | cons pair rest ih =>
    obtain ⟨key, param⟩ := pair
    rw [pairValues] at meant
    cases first : argument mode (paramValue mode names scope param) with
    | error failure =>
      rw [first] at meant
      cases meant
    | ok value =>
      cases others : pairValues mode names scope rest with
      | error failure =>
        rw [first, others] at meant
        cases meant
      | ok later =>
        rw [first, others] at meant
        cases meant
        exact congrArg (key :: ·) (ih others)

/-- The values of the pairs, the last on top -/
def PutPairs (view : View μ) (pairs : List (Str × Value μ)) (next : View μ) : Prop :=
  next = { view with operands := (pairs.map Prod.snd).reverse ++ view.operands }

/-- A hash whose values put themselves on the stack -/
theorem codes_acceptHash {values : Compile Unit} {keys : List Str}
    {pairs : Scope μ → Meaning (List (Str × Value μ))}
    (codes : Codes stage names (loc :: locs) values width pairs PutPairs)
    (named : ∀ scope entries, pairs scope = .ok entries → entries.map Prod.fst = keys)
    (few : keys.length ≤ Exec.hashCapacity) :
    Codes stage names locs (located loc (acceptHash keys values)) (max 1 width)
      (fun scope => do
        let pairs ← pairs scope
        pure (StrMap.updateAll stage.mode.platform.hash [] pairs.reverse)) PutMap := by
  refine emits_located fun nodes => ?_
  unfold acceptHash
  refine Emits.bind (emits_plain (by simp [opcodeCtor]) (by simp [opcodeCtor])) (fun _ =>
    Emits.seq codes fun _ => (Emits.bind (emits_assignToHash _) (fun _ =>
      emits_plain (by simp [opcodeCtor]) (by simp [opcodeCtor])) ?_ :
      Emits _ _ _ _ _ fun _ _ code => code = (keys.reverse.map fun key =>
        { opcodeCtor .assignToHash with op1 := .string key, loc := loc }) ++
          [(opcodeCtor .popHash).place loc])) ?_
  · rintro _ _ table _ _ rfl rfl
    rfl
  rintro _ _ table _ _ rfl ⟨made, _, rfl, means, rfl⟩ fuel view enough suits room
  have height : view.hashes.length < stackSize := suits.hashes.trans_lt nodes
  unfold stackSize at height
  have roomy : view.hashes.length < Stack.capacity := by
    unfold Stack.capacity
    omega
  refine Performs.after ?_ (?_ : Performs _ _ _ _ (.ok ()) fun _ next => ∃ hash, IsMap [] hash ∧
    next = { view with hashes := hash :: view.hashes })
  · rintro _ ⟨hash, isMap, rfl⟩
    have inside : Suits stage names (loc :: locs) { view with hashes := hash :: view.hashes } :=
      ⟨suits.inert, suits.fits, suits.depth, Nat.succ_le_succ suits.hashes⟩
    have fits : view.operands.length + width ≤ Stack.capacity := by omega
    refine (means fuel _ enough inside fits).append ?_
    rintro entries _ found rfl
    have keysOf : keys.reverse = entries.reverse.map Prod.fst := by
      rw [List.map_reverse, named _ _ found]
    have count : entries.length = keys.length := by
      rw [← named _ _ found, List.length_map]
    rw [keysOf, List.map_map, ← List.map_reverse]
    refine Performs.after ?_ (assignToHash_performs entries.reverse [] isMap
      (by simpa [count] using few) roomy)
    rintro _ ⟨full, isFull, rfl⟩
    refine performs_one fun machine stands => Proc.does_for _ ?_
    have place : view.operands.length < Stack.capacity := by omega
    refine Proc.does_mono (popHash_opcode_does place stands) ?_
    exact fun _ _ _ stands => ⟨_, ⟨full, isFull, rfl⟩, stands⟩
  · refine performs_one fun machine stands => ?_
    refine Proc.does_mono (pushHash_opcode_does stands roomy) ?_
    rintro _ _ after ⟨hash, isMap, stands⟩
    exact ⟨_, ⟨hash, isMap, rfl⟩, stands⟩

mutual

theorem codes_acceptParam (param : Param) (locs : List LocInfo) (fits : paramFits param = true) :
    Codes stage names locs (acceptParam stage.mode.platform param) (paramWidth param)
      (fun scope => paramValue stage.mode names scope param) Put := by
  cases param with
  | name name => exact codes_acceptName name
  | sexpr loc path params hash =>
    rw [acceptParam, paramWidth]
    simp only [paramValue]
    obtain ⟨inner, pairs⟩ : paramsFit params = true ∧ hashOptionFits hash = true := by
      simpa [paramFits] using fits
    refine Codes.located (codes_acceptSexpr
      ⟨codes_pushParams params loc locs inner, ?_, ?_, ?_, ?_, ?_⟩ path.toPath true)
    · exact codes_acceptHashOption hash loc locs pairs
    · intro absent scope
      cases hash with
      | none => rfl
      | some hash => cases absent
    · exact hashOptionWidth_pos hash
    · exact fun _ _ made => paramValues_length made
    · exact fun _ _ inside made => paramValues_all inside.toAll params made

theorem codes_pushParams (params : List Param) (loc : LocInfo) (locs : List LocInfo)
    (fits : paramsFit params = true) :
    Codes stage names (loc :: locs) (pushParams stage.mode.platform params) (paramsWidth params)
      (fun scope => paramValues stage.mode names scope params) PutAll := by
  cases params with
  | nil =>
    refine emits_pure fun _ fuel view _ _ _ => ?_
    exact performs_nil rfl
  | cons param rest =>
    rw [pushParams, paramsWidth]
    obtain ⟨here, later⟩ : paramFits param = true ∧ paramsFit rest = true := by
      simpa [paramsFit] using fits
    refine Emits.bind (codes_pushParam (codes_acceptParam param (loc :: locs) here) param)
      (fun _ => codes_pushParams rest loc locs later) ?_
    intro _ _ table front code first others fuel view enough suits room
    simp only [paramValues]
    refine (first fuel view enough suits (by omega)).append ?_
    rintro value _ - rfl
    have fits : (view.push value).operands.length + paramsWidth rest ≤ Stack.capacity := by
      rw [View.push, List.length_cons]
      omega
    refine (others fuel _ enough (suits.push value) fits).map ?_
    rintro values _ - rfl
    rw [PutAll, List.reverse_cons, List.append_assoc]
    rfl

theorem codes_acceptHashOption (hash : Option HashNode) (loc : LocInfo) (locs : List LocInfo)
    (fits : hashOptionFits hash = true) :
    ∀ body, acceptHashOption stage.mode.platform hash = some body →
      Codes stage names (loc :: locs) body (hashOptionWidth hash)
        (fun scope => hashValues stage.mode names scope hash) PutMap := by
  cases hash with
  | none => exact fun body none => by cases none
  | some hash =>
    intro body same
    cases same
    exact codes_acceptHashNode hash (loc :: locs) fits

theorem codes_acceptHashNode (hash : HashNode) (locs : List LocInfo)
    (fits : hashNodeFits hash = true) :
    Codes stage names locs (acceptHashNode stage.mode.platform hash) (hashNodeWidth hash)
      (fun scope => hashValues stage.mode names scope (some hash)) PutMap := by
  obtain ⟨loc, pairs⟩ := hash
  rw [acceptHashNode, hashNodeWidth]
  simp only [hashValues, hashPairs]
  obtain ⟨few, inner⟩ : pairs.length ≤ Exec.hashCapacity ∧ pairsFit pairs = true := by
    simpa [hashNodeFits] using fits
  exact codes_acceptHash (codes_pushPairs pairs loc locs inner)
    (fun _ _ made => pairValues_keys made) ((length_pairKeys pairs).trans_le few)

theorem codes_pushPairs (pairs : List HashPair) (loc : LocInfo) (locs : List LocInfo)
    (fits : pairsFit pairs = true) :
    Codes stage names (loc :: locs) (pushPairs stage.mode.platform pairs) (pairsWidth pairs)
      (fun scope => pairValues stage.mode names scope pairs) PutPairs := by
  cases pairs with
  | nil =>
    refine emits_pure fun _ fuel view _ _ _ => ?_
    exact performs_nil rfl
  | cons pair rest =>
    obtain ⟨key, param⟩ := pair
    rw [pushPairs, pairsWidth]
    obtain ⟨here, later⟩ : paramFits param = true ∧ pairsFit rest = true := by
      simpa [pairsFit] using fits
    refine Emits.bind (codes_pushParam (codes_acceptParam param (loc :: locs) here) param)
      (fun _ => codes_pushPairs rest loc locs later) ?_
    intro _ _ table front code first others fuel view enough suits room
    simp only [pairValues]
    refine (first fuel view enough suits (by omega)).append ?_
    rintro value _ - rfl
    have fits : (view.push value).operands.length + pairsWidth rest ≤ Stack.capacity := by
      rw [View.push, List.length_cons]
      omega
    refine (others fuel _ enough (suits.push value) fits).map ?_
    rintro values _ - rfl
    rw [PutPairs, List.map_cons, List.reverse_cons, List.append_assoc]
    rfl

end

end Arguments

end Render

end HandlebarsC
