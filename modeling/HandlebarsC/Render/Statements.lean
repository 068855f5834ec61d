import HandlebarsC.Compiler.Heights
import HandlebarsC.Render.Expressions

/-!
The code of a statement writes what the statement means, and that of a program what its
statements do.
-/

namespace HandlebarsC

open Effect Compiler

namespace Render

variable {μ κ : Type} {stage : Stage μ κ} {names : List BlockParamPair} {locs : List LocInfo}
  {loc : LocInfo}

section Writing

/-- Code that writes what is meant behind the text so far, when calls may be nested so deep -/
def Writes (stage : Stage μ κ) (names : List BlockParamPair) (calls : Nat) (body : Body μ)
    (code : List Opcode) : Prop :=
  ∀ fuel (scope : Scope μ) text, calls ≤ fuel → scope.Inert stage.owned → scope.Fits names →
    Performs stage fuel code ⟨[], [], scope, text⟩ (body scope)
      fun written next => next = ⟨[], [], scope, text ++ written⟩

theorem Writes.deeper {code : List Opcode} {body : Body μ} {calls deeper : Nat}
    (writes : Writes stage names calls body code) (more : calls ≤ deeper) :
    Writes stage names deeper body code :=
  fun fuel scope text enough => writes fuel scope text (more.trans enough)

theorem writes_nothing : Writes stage names calls noBody [] := by
  intro fuel scope text _ _ _
  refine performs_nil ?_
  rw [List.append_nil]

/-- What is written is one text behind the other. -/
theorem Writes.append {front code : List Opcode} {first rest : Body μ}
    (start : Writes stage names calls first front) (later : Writes stage names calls rest code) :
    Writes stage names calls (fun scope => do
      let text ← first scope
      let others ← rest scope
      pure (text ++ others)) (front ++ code) := by
  intro fuel scope text enough inert fits
  refine (start fuel scope text enough inert fits).append ?_
  rintro written _ - rfl
  refine (later fuel scope _ enough inert fits).map ?_
  rintro others _ - rfl
  rw [List.append_assoc]

/-- An opcode that writes the value on the stack -/
def Appends (μ κ : Type) (escape : Bool) (code : List Opcode) : Prop :=
  ∃ opcode, code = [opcode] ∧ ∀ (env : Env μ κ) (rec : Rec μ κ),
    Exec.acceptOpcode env rec opcode = Exec.acceptAppendWith env escape

/-- A value that is put on the stack is written. -/
theorem Performs.written {front code : List Opcode} {result : Meaning (Value μ)} {scope : Scope μ}
    {text : Str} {escape : Bool} {fuel : Nat} {view : View μ}
    (puts : Performs stage fuel front view result (Put ⟨[], [], scope, text⟩))
    (appends : Appends μ κ escape code) :
    Performs stage fuel (front ++ code) view (do
      let value ← result
      pure (value.expression stage.mode.platform escape))
      fun written next => next = ⟨[], [], scope, text ++ written⟩ := by
  obtain ⟨opcode, rfl, same⟩ := appends
  refine puts.append ?_
  rintro value _ - rfl
  refine performs_to fun machine stands => Proc.does_for _ ?_
  rw [same]
  exact append_does escape stands

end Writing

section Plain

theorem emits_acceptContent (stage : Stage μ κ) (value : Str) :
    Emits stage.mode module names (loc :: locs) (acceptContent value)
      fun _ _ => Writes stage names 0 fun _ => pure value := by
  unfold acceptContent
  split
  · refine (emits_plain (by simp [opcodeCtor]) (by simp [opcodeCtor])).mono ?_
    rintro _ table _ rfl fuel scope text - - -
    refine performs_to fun machine stands => Proc.does_for value ?_
    exact appendContent_does rfl stands
  · rename_i empty
    have none : value = [] := List.eq_nil_of_length_eq_zero (by omega)
    rw [none]
    exact emits_pure fun _ => writes_nothing

variable {arguments : Arguments} {argsWidth hashWidth : Nat}
  {args : Scope μ → Meaning (List (Value μ))} {hash : Scope μ → Meaning (StrMap (Value μ))}

/-- A program with nothing on its stacks -/
theorem suits_scope {scope : Scope μ} (inert : scope.Inert stage.owned) (fits : scope.Fits names)
    (depth : names.length ≤ stackSize) (text : Str) :
    Suits stage names locs ⟨[], [], scope, text⟩ :=
  ⟨inert, fits, depth, Nat.zero_le _⟩

/-- The last opcode of a mustache -/
theorem emits_appendMustache (unescaped : Bool) :
    Emits stage.mode module names (loc :: locs) (do
      let flags ← Proc.read Compiler.flags
      if !unescaped && !flags.has Flag.noEscape then opN .appendEscaped else opN .append)
      fun _ _ => Appends μ κ (!unescaped && !stage.mode.compileFlags.has Flag.noEscape) := by
  refine emits_read fun compiler inside => ?_
  rw [inside.flags]
  split
  · rename_i escapes
    refine (emits_plain (by simp [opcodeCtor]) (by simp [opcodeCtor])).mono ?_
    rintro _ table _ rfl
    rw [escapes]
    exact ⟨_, rfl, fun env rec => rfl⟩
  · rename_i plain
    refine (emits_plain (by simp [opcodeCtor]) (by simp [opcodeCtor])).mono ?_
    rintro _ table _ rfl
    rw [Bool.eq_false_of_not_eq_true plain]
    exact ⟨_, rfl, fun env rec => rfl⟩

theorem emits_acceptMustache
    (ready : ArgumentsCode stage names (loc :: locs) arguments argsWidth hashWidth args hash)
    (depth : names.length ≤ stackSize)
    (room : callWidth arguments.count argsWidth hashWidth ≤ Stack.capacity) (path : HelperName)
    (unescaped : Bool) :
    Emits stage.mode (stage.env.module stage.module) names (loc :: locs)
      (acceptMustache stage.mode.platform path arguments unescaped false)
      fun _ _ => Writes stage names 3 (fun scope => do
        let value ← expression stage.mode names scope loc path.toPath (args scope) (hash scope)
          arguments.present
        pure (value.expression stage.mode.platform
          (!unescaped && !stage.mode.compileFlags.has Flag.noEscape))) := by
  unfold acceptMustache
  rw [if_neg Bool.false_ne_true]
  refine Emits.bind (codes_acceptSexpr ready path.toPath arguments.present)
    (fun _ => emits_appendMustache (κ := κ) unescaped) ?_
  intro _ _ table front code means appends fuel scope text enough inert fits
  refine (means fuel _ enough (suits_scope inert fits depth text) ?_).written appends
  rw [List.length_nil, Nat.zero_add]
  exact room

end Plain

section Blocks

variable {arguments : Arguments} {argsWidth hashWidth : Nat}
  {args : Scope μ → Meaning (List (Value μ))} {hash : Scope μ → Meaning (StrMap (Value μ))}
  {path : PathNode} {programGuid inverseGuid : Int} {printed : Option Str}

theorem calling_scope {scope : Scope μ} {program inverse : Body μ} {bound fuel : Nat}
    {programNumber inverseNumber : Int} (inert : scope.Inert stage.owned) (fits : scope.Fits names)
    (depth : names.length ≤ stackSize) (enough : bound + 2 ≤ fuel)
    (blocks : Blocks stage names bound [] [] programNumber inverseNumber program inverse)
    (locs : List LocInfo) (text : Str) :
    Calling stage names locs bound fuel ⟨[], [], scope, text⟩ programNumber inverseNumber program
      inverse :=
  ⟨suits_scope inert fits depth text, enough, show 0 + 4 ≤ Stack.capacity by decide, blocks⟩

/-- Code that writes a block, given programs for it -/
def WritesBlock (stage : Stage μ κ) (names : List BlockParamPair) (loc : LocInfo) (path : PathNode)
    (args : Scope μ → Meaning (List (Value μ))) (hash : Scope μ → Meaning (StrMap (Value μ)))
    (isHelperExpression : Bool) (programGuid inverseGuid : Int) (table : List Nat)
    (code : List Opcode) : Prop :=
  ∀ bound (program inverse : Body μ), 1 ≤ bound →
    Blocks stage names bound [] [] (globalGuid table programGuid) (globalGuid table inverseGuid)
      program inverse →
    Writes stage names (bound + 2) (fun scope => blockText stage.mode names scope loc path
      (args scope) (hash scope) isHelperExpression program inverse) code

/-- The opcode that appends what is not there writes nothing. -/
theorem Performs.settled {front : List Opcode} {result : Meaning Str} {scope : Scope μ} {text : Str}
    {opcode : Opcode} {fuel : Nat}
    (writes : Performs stage fuel front ⟨[], [], scope, text⟩ result
      fun written next => next = ⟨[], [], scope, text ++ written⟩)
    (appends : opcode.type = .append) :
    Performs stage fuel (front ++ [opcode]) ⟨[], [], scope, text⟩ result
      fun written next => next = ⟨[], [], scope, text ++ written⟩ := by
  rw [← bind_pure result]
  refine writes.append ?_
  rintro written _ - rfl
  refine performs_to fun machine stands => Proc.does_for _ ?_
  unfold Exec.acceptOpcode
  rw [appends]
  exact @append_nothing_does _ _ _ ⟨[], [], scope, text ++ written⟩ _ false stands

/-- The code that hands a value and two programs to the helper for blocks that are no helpers -/
def HandsOver (stage : Stage μ κ) (programGuid inverseGuid : Int) (type : OpcodeType) :
    List Nat → List Opcode → Prop :=
  Parts (PushesPair stage programGuid inverseGuid)
    (Parts (fun _ code => ∃ opcode : Opcode, code = [opcode] ∧ opcode.type = .emptyHash)
      fun _ code => ∃ opcode : Opcode, code = [opcode] ∧ opcode.type = type ∧
        (type = .blockValue → ∃ name, opcode.op1 = .string name))

/-- The value and the programs are on the stack, with an empty hash. -/
theorem HandsOver.performs {type : OpcodeType} {table : List Nat} {code : List Opcode}
    {value : Value μ} {scope : Scope μ} {text : Str} {fuel bound : Nat} {program inverse : Body μ}
    {result : Meaning α} {post : α → View μ → Prop}
    (hands : HandsOver stage programGuid inverseGuid type table code)
    (calling : Calling stage names locs bound fuel ⟨[], [], scope, text⟩
      (globalGuid table programGuid) (globalGuid table inverseGuid) program inverse)
    (inside : value.Inert stage.owned)
    (last : ∀ opcode hash, opcode.type = type →
      (type = .blockValue → ∃ name, opcode.op1 = .string name) → IsMap [] hash →
      Prepared stage names bound fuel ⟨[], [], scope, text⟩ [] (globalGuid table programGuid)
        (globalGuid table inverseGuid) ⟨none, [value], [], program, inverse⟩ →
      Performs stage fuel [opcode] ⟨callOperands hash (globalGuid table programGuid)
        (globalGuid table inverseGuid) [value] [], [], scope, text⟩ result post) :
    Performs stage fuel code ⟨[value], [], scope, text⟩ result post := by
  obtain ⟨pair, _, rfl, pushes, _, _, rfl, ⟨first, rfl, isEmpty⟩, opcode, rfl, same, named⟩ := hands
  refine Performs.after ?_ (pushes fuel _ (show 1 + 2 ≤ Stack.capacity by decide))
  rintro _ rfl
  refine Performs.after ?_ (?_ : Performs _ _ _ _ (.ok ()) fun _ next => ∃ hash, IsMap [] hash ∧
    next = ⟨callOperands hash (globalGuid table programGuid) (globalGuid table inverseGuid) [value]
      [], [], scope, text⟩)
  · rintro _ ⟨hash, isMap, rfl⟩
    refine last opcode hash same named isMap (calling.prepared _ ?_)
    exact fun _ member => List.mem_singleton.mp member ▸ inside
  · refine performs_one fun machine stands => ?_
    unfold Exec.acceptOpcode
    rw [isEmpty]
    refine Proc.does_mono (emptyHash_does stands (show 3 < Stack.capacity by decide)) ?_
    rintro _ _ after ⟨hash, isMap, stands⟩
    exact ⟨_, ⟨hash, isMap, rfl⟩, stands⟩

theorem emits_handsOver (stage : Stage μ κ) (type : OpcodeType) {last : Compile Unit}
    (emits : Emits stage.mode module names (loc :: locs) last fun _ _ code =>
      ∃ opcode : Opcode, code = [opcode] ∧ opcode.type = type ∧
        (type = .blockValue → ∃ name, opcode.op1 = .string name)) :
    Emits stage.mode module names (loc :: locs) (do
      pushProgramPair programGuid inverseGuid
      opN .emptyHash
      last) fun _ => HandsOver stage programGuid inverseGuid type := by
  refine Emits.seq (emits_pushProgramPair _ _) fun _ => Emits.seq ?_ fun _ => emits
  refine (emits_plain (by simp [opcodeCtor]) (by simp [opcodeCtor])).mono ?_
  rintro _ table _ rfl
  exact ⟨_, rfl, rfl⟩

/-- What is written for the value of a block that is no helper -/
def valueBlockText (mode : Mode) (scope : Scope μ) (program inverse : Body μ) (value : Value μ) :
    Meaning Str := do
  let value ← textValue (valueBlock mode scope ⟨none, [value], [], program, inverse⟩ value)
  pure ((value : Value μ).expression mode.platform false)

theorem blockText_value {scope : Scope μ} {args : Meaning (List (Value μ))}
    {hash : Meaning (StrMap (Value μ))} {isHelperExpression : Bool} {program inverse : Body μ}
    {mode : Mode} (plain : kind mode names path isHelperExpression ≠ .helper) :
    blockText mode names scope loc path args hash isHelperExpression program inverse =
      pathValue mode names scope { path with strict := true } >>=
        valueBlockText mode scope program inverse := by
  unfold blockText
  cases sort : kind mode names path isHelperExpression with
  | helper => exact absurd sort plain
  | simple | ambig => rfl

theorem HandsOver.blockValue_performs {table : List Nat} {code : List Opcode} {value : Value μ}
    {scope : Scope μ} {text : Str} {fuel bound : Nat} {program inverse : Body μ}
    (hands : HandsOver stage programGuid inverseGuid .blockValue table code)
    (calling : Calling stage names locs bound fuel ⟨[], [], scope, text⟩
      (globalGuid table programGuid) (globalGuid table inverseGuid) program inverse)
    (inside : value.Inert stage.owned) :
    Performs stage fuel code ⟨[value], [], scope, text⟩
      (valueBlockText stage.mode scope program inverse value)
      (fun written next => next = ⟨[], [], scope, text ++ written⟩) := by
  refine hands.performs calling inside ?_
  intro opcode hash type named isMap prepared
  obtain ⟨name, op1⟩ := named rfl
  unfold valueBlockText
  refine performs_one fun machine stands => ?_
  refine Proc.does_map (?_ : Does _ _ (fun (value : Value μ) _ after => Stands stage
    ⟨[], [], scope, text ++ value.expression stage.mode.platform false⟩ after) _) ?_
  · unfold Exec.acceptOpcode
    rw [type]
    exact prepared.blockValue isMap rfl op1 stands
  · exact fun value _ after _ stands => ⟨_, rfl, stands⟩

theorem HandsOver.ambiguousBlockValue_performs {table : List Nat} {code : List Opcode}
    {value : Value μ} {scope : Scope μ} {text : Str} {fuel bound : Nat} {program inverse : Body μ}
    (hands : HandsOver stage programGuid inverseGuid .ambiguousBlockValue table code)
    (calling : Calling stage names locs bound fuel ⟨[], [], scope, text⟩
      (globalGuid table programGuid) (globalGuid table inverseGuid) program inverse)
    (inside : value.Inert stage.owned) :
    Performs stage fuel code ⟨[value], [], scope, text⟩
      (textValue (valueBlock stage.mode scope ⟨none, [value], [], program, inverse⟩ value))
      (Put ⟨[], [], scope, text⟩) := by
  refine hands.performs calling inside ?_
  intro opcode hash type _ isMap prepared
  refine performs_to fun machine stands => ?_
  unfold Exec.acceptOpcode
  rw [type]
  exact prepared.ambiguousBlockValue isMap rfl stands

theorem emits_append :
    Emits stage.mode module names (loc :: locs) (opN .append) fun _ _ code =>
      ∃ opcode : Opcode, code = [opcode] ∧ opcode.type = .append := by
  refine (emits_plain (by simp [opcodeCtor]) (by simp [opcodeCtor])).mono ?_
  rintro _ table _ rfl
  exact ⟨_, rfl, rfl⟩

theorem appends_append {opcode : Opcode} (type : opcode.type = .append) :
    Appends μ κ false [opcode] := by
  refine ⟨opcode, rfl, ?_⟩
  intro env rec
  unfold Exec.acceptOpcode
  rw [type]
  rfl

/-- The calls of a block, without the opcode that writes what is left on the stack -/
theorem emits_blockValue (path : PathNode) :
    Emits stage.mode module names (loc :: locs) (do
      let original ← nonnull path.original
      opS .blockValue original) fun _ _ code =>
        ∃ opcode : Opcode, code = [opcode] ∧ opcode.type = .blockValue ∧
          (OpcodeType.blockValue = .blockValue → ∃ name, opcode.op1 = .string name) := by
  refine emits_nonnull fun original _ => ?_
  refine (emits_plain (by simp [opcodeCtor]) (by simp [opcodeCtor])).mono ?_
  rintro _ table _ rfl
  exact ⟨_, rfl, rfl, fun _ => ⟨original, rfl⟩⟩

theorem emits_ambiguousBlockValue :
    Emits stage.mode module names (loc :: locs) (opN .ambiguousBlockValue) fun _ _ code =>
      ∃ opcode : Opcode, code = [opcode] ∧ opcode.type = .ambiguousBlockValue ∧
        (OpcodeType.ambiguousBlockValue = .blockValue → ∃ name, opcode.op1 = .string name) := by
  refine (emits_plain (by simp [opcodeCtor]) (by simp [opcodeCtor])).mono ?_
  rintro _ table _ rfl
  exact ⟨_, rfl, rfl, fun never => by cases never⟩

theorem emits_acceptBlockSexpr
    (ready : ArgumentsCode stage names (loc :: locs) arguments argsWidth hashWidth args hash)
    (depth : names.length ≤ stackSize)
    (room : callWidth arguments.count argsWidth hashWidth ≤ Stack.capacity) :
    Emits stage.mode (stage.env.module stage.module) names (loc :: locs)
      (acceptBlockSexpr stage.mode.platform path arguments programGuid inverseGuid printed)
      fun _ => WritesBlock stage names loc path args hash arguments.present programGuid
        inverseGuid := by
  unfold acceptBlockSexpr
  refine emits_read fun compiler inside => ?_
  rw [id_eq, inside.kind path arguments.present]
  cases sort : kind stage.mode names path arguments.present with
  | helper =>
    refine Emits.bind (emits_acceptSexprHelper ready path programGuid inverseGuid)
      (fun _ => emits_append) ?_
    rintro _ _ table front _ emitted ⟨opcode, rfl, type⟩ bound program inverse deep blocks fuel scope
      text enough inert fits
    have calling := calling_scope inert fits depth enough blocks (loc :: locs) text
    unfold blockText
    rw [sort]
    refine (helper_performs ready emitted calling deep ?_).written (appends_append type)
    rw [List.length_nil, Nat.zero_add]
    exact room
  | simple =>
    refine Emits.bind (Emits.seq (codes_acceptSexprSimple path) fun _ =>
      emits_handsOver stage .blockValue (emits_blockValue path)) (fun _ => emits_append) ?_
    rintro _ _ table _ _ ⟨front, hands, rfl, means, handsOver⟩ ⟨opcode, rfl, type⟩ bound program
      inverse deep blocks fuel scope text enough inert fits
    have calling := calling_scope inert fits depth enough blocks (loc :: locs) text
    dsimp only
    rw [blockText_value (by rw [sort]; simp)]
    refine Performs.settled ((means fuel _ (by omega) calling.suits ?_).append ?_) type
    · exact show 0 + 1 ≤ Stack.capacity by decide
    · rintro value _ looked rfl
      exact handsOver.blockValue_performs calling (pathValue_all inert.toAll looked)
  | ambig =>
    refine Emits.bind (Emits.seq (emits_acceptSexprAmbiguous path programGuid inverseGuid printed)
      fun _ => emits_handsOver stage .ambiguousBlockValue emits_ambiguousBlockValue)
      (fun _ => emits_append) ?_
    rintro _ _ table _ _ ⟨front, hands, rfl, ambiguous, handsOver⟩ ⟨opcode, rfl, type⟩ bound program
      inverse deep blocks fuel scope text enough inert fits
    have calling := calling_scope inert fits depth enough blocks (loc :: locs) text
    dsimp only
    rw [blockText_value (by rw [sort]; simp), List.append_assoc]
    refine (ambiguous_performs ambiguous calling (unknown_of_ambig sort)).append ?_
    rintro value _ looked rfl
    exact (handsOver.ambiguousBlockValue_performs calling (pathValue_all inert.toAll looked)).written
      (appends_append type)

end Blocks

section Covered

mutual

/-- The calls that a statement nests at most -/
def statementCalls : Statement → Nat
  | .block _ _ _ _ program inverse _ | .rawBlock _ _ _ _ program inverse =>
    3 + max (nodeOptionCalls program) (nodeOptionCalls inverse)
  | .mustache .. | .partialCall .. | .partialBlock .. | .content .. | .comment .. => 3

def statementsCalls : List Statement → Nat
  | [] => 0
  | statement :: rest => max (statementCalls statement) (statementsCalls rest)

def nodeCalls : ProgramNode → Nat
  | .mk _ _ statements _ _ => statementsCalls statements

def nodeOptionCalls : Option ProgramNode → Nat
  | none => 0
  | some node => nodeCalls node

end

mutual

/-- Neither partials nor decorators are in the statement, the stack has room for the operands of
its expressions and the map of each hash for its pairs. -/
def statementCovered : Statement → Bool
  | .block _ _ params hash program inverse isDecorator =>
    !isDecorator && argumentsFit params hash &&
      nodeOptionCovered program && nodeOptionCovered inverse
  | .rawBlock _ _ params hash program inverse =>
    argumentsFit params hash && nodeOptionCovered program &&
      nodeOptionCovered inverse
  | .mustache _ _ params hash _ isDecorator =>
    !isDecorator && argumentsFit params hash
  | .partialCall .. | .partialBlock .. => false
  | .content .. | .comment .. => true

def statementsCovered : List Statement → Bool
  | [] => true
  | statement :: rest => statementCovered statement && statementsCovered rest

def nodeCovered : ProgramNode → Bool
  | .mk _ _ statements _ _ => statementsCovered statements

def nodeOptionCovered : Option ProgramNode → Bool
  | none => true
  | some node => nodeCovered node

end

end Covered

section Templates

theorem argumentsFit_iff {params : List Param} {hash : Option HashNode} :
    argumentsFit params hash = true ↔ argumentsWidth params hash ≤ Stack.capacity ∧
      paramsFit params = true ∧ hashOptionFits hash = true := by
  simp only [argumentsFit, Bool.and_eq_true, decide_eq_true_eq, and_assoc]

theorem argumentsCode {params : List Param} {hash : Option HashNode} (loc : LocInfo)
    (locs : List LocInfo) (fit : argumentsFit params hash = true) :
    ArgumentsCode stage names (loc :: locs) (argumentsOf stage.mode.platform params hash)
      (paramsWidth params) (hashOptionWidth hash)
      (fun scope => paramValues stage.mode names scope params)
      (fun scope => hashValues stage.mode names scope hash) where
  params := codes_pushParams params loc locs (argumentsFit_iff.mp fit).2.1
  pairs := codes_acceptHashOption hash loc locs (argumentsFit_iff.mp fit).2.2
  noHash := by
    intro absent scope
    cases hash with
    | none => rfl
    | some hash => cases absent
  hashWidth := hashOptionWidth_pos hash
  count := fun _ _ made => paramValues_length made
  inert := fun _ _ inside made => paramValues_all inside.toAll params made

/-- The number of a program stands for a body, which may be that of no program. -/
def StandsFor (stage : Stage μ κ) (names : List BlockParamPair) (calls : Nat) (body : Body μ)
    (guid : Int) (table : List Nat) : Prop :=
  ∀ fuel, calls + 1 ≤ fuel →
    Carries stage names [] [] (Exec.level stage.env fuel) (globalGuid table guid) body

theorem HasProgram.carries {number calls fuel : Nat} {body : Body μ} {pair : BlockParamPair}
    (program : HasProgram (stage.env.module stage.module) (fun code => ∃ _ : List Nat,
      names.length < stackSize ∧ Writes stage (pair :: names) calls body code) number)
    (enough : calls + 1 ≤ fuel) :
    Carries stage names [] [] (Exec.level stage.env fuel) number body := by
  obtain ⟨entry, code, rest, counted, found, placed, running, _, depth, writes⟩ := program
  obtain ⟨fuel, rfl⟩ : ∃ less, fuel = less + 1 := ⟨fuel - 1, by omega⟩
  have room : names.length < Stack.capacity := depth.trans (by decide)
  refine carries_program pair counted found placed running room ?_
  intro scope inert fits
  exact writes fuel scope [] (by omega) inert fits

/-- The node of a program, with the code its body is written by -/
def EmitsNode (stage : Stage μ κ) (names : List BlockParamPair) (locs : List LocInfo)
    (node : Compile Unit) (calls : Nat) (body : Body μ) : Prop :=
  ∃ pair, Emits stage.mode (stage.env.module stage.module) names locs node fun _ _ code =>
    names.length < stackSize ∧ Writes stage (pair :: names) calls body code

theorem EmitsNode.compiled {node : Compile Unit} {calls : Nat} {body : Body μ}
    (emits : EmitsNode stage names locs node calls body) :
    Emits stage.mode (stage.env.module stage.module) names locs (compileProgram (some node))
      fun guid table code => code = [] ∧ StandsFor stage names calls body guid table := by
  obtain ⟨pair, emits⟩ := emits
  refine (emits_compileProgram emits).mono ?_
  rintro guid table _ ⟨rfl, number, same, program⟩
  refine ⟨rfl, fun fuel enough => ?_⟩
  rw [same]
  exact program.carries enough

/-- The two programs of a block -/
theorem blocks_standFor {table : List Nat} {programGuid inverseGuid : Int} {first second : Nat}
    {program inverse : Body μ} (programs : StandsFor stage names first program programGuid table)
    (inverses : StandsFor stage names second inverse inverseGuid table) :
    Blocks stage names (max first second + 1) [] [] (globalGuid table programGuid)
      (globalGuid table inverseGuid) program inverse :=
  ⟨fun fuel enough => programs fuel (by omega), fun fuel enough => inverses fuel (by omega)⟩

/-- A block, its two programs first -/
theorem emits_blockPrograms {params : List Param} {hash : Option HashNode}
    {program inverse : Option (Compile Unit)} {path : PathNode} {printed : Option Str}
    {first second : Nat} {inside outside : Body μ}
    (ready : ArgumentsCode stage names (loc :: locs) (argumentsOf stage.mode.platform params hash)
      (paramsWidth params) (hashOptionWidth hash)
      (fun scope => paramValues stage.mode names scope params)
      (fun scope => hashValues stage.mode names scope hash))
    (depth : names.length ≤ stackSize) (room : argumentsWidth params hash ≤ Stack.capacity)
    (programs : Emits stage.mode (stage.env.module stage.module) names (loc :: locs)
      (compileProgram program) fun guid table code =>
        code = [] ∧ StandsFor stage names first inside guid table)
    (inverses : Emits stage.mode (stage.env.module stage.module) names (loc :: locs)
      (compileProgram inverse) fun guid table code =>
        code = [] ∧ StandsFor stage names second outside guid table) :
    Emits stage.mode (stage.env.module stage.module) names (loc :: locs) (do
      let programGuid ← compileProgram program
      let inverseGuid ← compileProgram inverse
      acceptBlockSexpr stage.mode.platform path (argumentsOf stage.mode.platform params hash)
        programGuid inverseGuid printed)
      fun _ _ => Writes stage names (3 + max first second) (fun scope =>
        blockText stage.mode names scope loc path (paramValues stage.mode names scope params)
          (hashValues stage.mode names scope hash) (hasArguments params hash) inside outside) := by
  refine Emits.bind programs (fun programGuid => (Emits.bind inverses
    (fun inverseGuid => emits_acceptBlockSexpr ready depth room) ?_ :
    Emits _ _ _ _ _ fun _ table code => ∃ inverseGuid, StandsFor stage names second outside inverseGuid
      table ∧ WritesBlock stage names loc path (fun scope => paramValues stage.mode names scope params)
        (fun scope => hashValues stage.mode names scope hash)
        (argumentsOf stage.mode.platform params hash).present programGuid inverseGuid table code)) ?_
  · rintro inverseGuid _ table _ code ⟨rfl, stands⟩ writes
    exact ⟨inverseGuid, stands, writes⟩
  · rintro programGuid _ table _ code ⟨rfl, stands⟩ ⟨inverseGuid, other, writes⟩
    rw [← present_argumentsOf params hash]
    refine (writes _ _ _ ?_ (blocks_standFor stands other)).deeper ?_
    · omega
    · omega

mutual

theorem emits_acceptStatement (statement : Statement) (names : List BlockParamPair)
    (locs : List LocInfo) (depth : names.length ≤ stackSize)
    (covered : statementCovered statement = true) :
    Emits stage.mode (stage.env.module stage.module) names locs
      (acceptStatement stage.mode.platform statement)
      fun _ _ => Writes stage names (statementCalls statement)
        (statementText stage.mode names statement) := by
  cases statement with
  | content loc value =>
    rw [acceptStatement, statementCalls]
    refine emits_located fun _ => (emits_acceptContent stage value).mono ?_
    intro _ table code writes
    simp only [statementText]
    exact writes.deeper (Nat.zero_le _)
  | comment loc =>
    rw [acceptStatement]
    simp only [statementText]
    exact emits_located fun _ => emits_pure fun _ => writes_nothing
  | mustache loc path params hash unescaped isDecorator =>
    obtain ⟨plain, fit⟩ : isDecorator = false ∧ argumentsFit params hash = true := by
      simpa [statementCovered] using covered
    rw [acceptStatement, statementCalls, plain]
    simp only [statementText]
    rw [← present_argumentsOf params hash]
    exact emits_located fun _ => emits_acceptMustache (argumentsCode loc locs fit) depth (argumentsFit_iff.mp fit).1
      path unescaped
  | block loc path params hash program inverse isDecorator =>
    obtain ⟨⟨⟨plain, fit⟩, inside⟩, outside⟩ : ((isDecorator = false ∧
        argumentsFit params hash = true) ∧ nodeOptionCovered program = true) ∧
        nodeOptionCovered inverse = true := by
      simpa [statementCovered] using covered
    rw [acceptStatement, statementCalls, plain]
    simp only [statementText]
    refine emits_located fun _ => emits_blockPrograms (argumentsCode loc locs fit) depth (argumentsFit_iff.mp fit).1
      (emits_compileOption program names _ inside) (emits_compileOption inverse names _ outside)
  | rawBlock loc path params hash program inverse =>
    obtain ⟨⟨fit, inside⟩, outside⟩ : (argumentsFit params hash = true ∧
        nodeOptionCovered program = true) ∧ nodeOptionCovered inverse = true := by
      simpa [statementCovered] using covered
    rw [acceptStatement, statementCalls]
    simp only [statementText]
    refine emits_located fun _ => emits_blockPrograms (argumentsCode loc locs fit) depth (argumentsFit_iff.mp fit).1
      (emits_compileOption program names _ inside) (emits_compileOption inverse names _ outside)
  | partialCall => cases covered
  | partialBlock => cases covered

theorem emits_acceptStatements (statements : List Statement) (names : List BlockParamPair)
    (locs : List LocInfo) (depth : names.length ≤ stackSize)
    (covered : statementsCovered statements = true) :
    Emits stage.mode (stage.env.module stage.module) names locs
      (acceptStatements stage.mode.platform statements)
      fun _ _ => Writes stage names (statementsCalls statements)
        (statementsText stage.mode names statements) := by
  cases statements with
  | nil => exact emits_pure fun _ => writes_nothing
  | cons statement rest =>
    obtain ⟨here, later⟩ : statementCovered statement = true ∧ statementsCovered rest = true := by
      simpa [statementsCovered] using covered
    rw [acceptStatements, statementsCalls]
    simp only [statementsText]
    refine Emits.bind (emits_acceptStatement statement names locs depth here)
      (fun _ => emits_acceptStatements rest names locs depth later) ?_
    intro _ _ table front code first others
    exact (first.deeper (le_max_left _ _)).append (others.deeper (le_max_right _ _))

theorem emits_acceptNode (node : ProgramNode) (names : List BlockParamPair) (locs : List LocInfo)
    (covered : nodeCovered node = true) :
    EmitsNode stage names locs (acceptNode stage.mode.platform node) (nodeCalls node)
      (nodeText stage.mode names node) := by
  obtain ⟨loc, printed, statements, blockParam1, blockParam2⟩ := node
  refine ⟨⟨blockParam1, blockParam2⟩, emits_located fun _ => emits_acceptProgram fun place => ?_⟩
  exact emits_acceptStatements statements _ _ place covered

theorem emits_compileOption (node : Option ProgramNode) (names : List BlockParamPair)
    (locs : List LocInfo) (covered : nodeOptionCovered node = true) :
    Emits stage.mode (stage.env.module stage.module) names locs
      (compileProgram (acceptNodeOption stage.mode.platform node))
      fun guid table code => code = [] ∧ StandsFor stage names (nodeOptionCalls node)
        (nodeOptionText stage.mode names node) guid table := by
  cases node with
  | none =>
    refine emits_pure fun table => ⟨rfl, fun fuel enough => ?_⟩
    exact carries_none stage names [] [] (by omega)
  | some node => exact (emits_acceptNode node names locs covered).compiled

end

end Templates

end Render

end HandlebarsC
