import HandlebarsC.Parser.Trimmed
import HandlebarsC.Render.Modes

/-!
What the whitespace pass does to the text of a template: nothing that is visible. The contents of a
template go into its text and nowhere else.
-/

namespace HandlebarsC.Render

open HandlebarsC.Parser (AltersList AltersOption AltersStatements blanks Content Node ProgramTree
  programOption statementList statementOption StripFlags)

variable {μ κ : Type}

/-- A text without blanks -/
def visible (text : Str) : Str := text.filter fun char => ¬char ∈ blanks true

theorem visible_append (front back : Str) : visible (front ++ back) = visible front ++ visible back :=
  List.filter_append ..

/-- Texts that are visibly the same, or the same failure -/
def Visibly (first second : Meaning Str) : Prop := first.map visible = second.map visible

theorem visibly_texts : Texts Visibly where
  refl _ := rfl
  after := by
    intro α first next other rest
    cases first with
    | error failure => rfl
    | ok value => exact rest value
  append := by
    intro first second first' second' start rest
    unfold Visibly at *
    cases first with
    | error failure =>
      cases first' with
      | error failure' =>
        cases start
        rfl
      | ok text' => cases start
    | ok text =>
      cases first' with
      | error failure => cases start
      | ok text' =>
        have front : visible text = visible text' := Except.ok.inj start
        cases second with
        | error failure =>
          cases second' with
          | error failure' =>
            cases rest
            rfl
          | ok back' => cases rest
        | ok back =>
          cases second' with
          | error failure => cases rest
          | ok back' =>
            have behind : visible back = visible back' := Except.ok.inj rest
            refine congrArg Except.ok ?_
            rw [visible_append, visible_append, front, behind]

section Blocks

variable {mode : Mode} {names : List BlockParamPair} {scope : Scope μ} {loc : LocInfo}
  {path : PathNode} {program inverse program' inverse' : Body μ}

/-- Values whose texts are visibly the same -/
def Written (mode : Mode) (first second : Meaning (Value μ)) : Prop :=
  Visibly (first >>= fun value => pure (value.expression mode.platform false))
    (second >>= fun value => pure (value.expression mode.platform false))

theorem Written.refl (value : Meaning (Value μ)) : Written mode value value := rfl

theorem Written.textual {first second : Meaning Str} (same : Visibly first second) :
    Written mode (textValue first : Meaning (Value μ)) (textValue second) := by
  have plain : ∀ text : Meaning Str, ((textValue text : Meaning (Value μ)) >>= fun value =>
      pure (value.expression mode.platform false)) = text := by
    intro text
    cases text with
    | error failure => rfl
    | ok text =>
      change Except.ok ((Value.string text false : Value μ).expression mode.platform false) = _
      rw [Value.expression]
      rfl
  unfold Written
  rw [plain, plain]
  exact same

theorem Written.after {α : Type} (first : Meaning α) {next other : α → Meaning (Value μ)}
    (rest : ∀ value, Written mode (next value) (other value)) :
    Written mode (first >>= next) (first >>= other) := by
  unfold Written
  rw [bind_assoc, bind_assoc]
  exact visibly_texts.after first rest

theorem callBuiltin_written (programs : Bodies Visibly program program')
    (inverses : Bodies Visibly inverse inverse') (name : Option Str) (args : List (Value μ))
    (hash : StrMap (Value μ)) (builtin : Builtin) :
    Written mode (callBuiltin mode scope ⟨name, args, hash, program, inverse⟩ builtin)
      (callBuiltin mode scope ⟨name, args, hash, program', inverse'⟩ builtin) :=
  callBuiltin_related visibly_texts programs inverses Written.refl Written.textual builtin

theorem helperValue_written (programs : Bodies Visibly program program')
    (inverses : Bodies Visibly inverse inverse') (args : List (Value μ)) (hash : StrMap (Value μ)) :
    Written mode (helperValue mode names scope loc path args hash program inverse)
      (helperValue mode names scope loc path args hash program' inverse') := by
  unfold helperValue
  dsimp only
  split
  · split
    · exact callBuiltin_written programs inverses _ _ _ _
    · exact .refl _
  · exact .after _ fun _ => callBuiltin_written programs inverses _ _ _ _

/-- The blocks of a call go into its text and nowhere else. -/
theorem blockText_visibly (programs : Bodies Visibly program program')
    (inverses : Bodies Visibly inverse inverse') {args : Meaning (List (Value μ))}
    {hash : Meaning (StrMap (Value μ))} {isHelperExpression : Bool} :
    Visibly (blockText mode names scope loc path args hash isHelperExpression program inverse)
      (blockText mode names scope loc path args hash isHelperExpression program' inverse') := by
  by_cases helper : kind mode names path isHelperExpression = .helper
  · unfold blockText
    rw [helper]
    refine Written.after args fun values => Written.after hash fun entries => ?_
    exact helperValue_written programs inverses values entries
  · rw [blockText_value helper, blockText_value helper]
    exact visibly_texts.after _ fun value => callBuiltin_written programs inverses none [value] []
      .blockHelperMissing

end Blocks

section Trees

variable {mode : Mode} {print : ProgramTree → Str}

mutual

/-- Trees that differ in blanks of their contents have bodies that differ in blanks. -/
theorem statementText_visibly (names : List BlockParamPair) {node after : Node}
    (alters : node.Alters Content.Trimmed after) :
    Bodies Visibly (statementText mode names (node.toStatement print) : Body μ)
      (statementText mode names (after.toStatement print)) := by
  intro scope
  cases alters with
  | block inner outer =>
    simp only [Node.toStatement, statementText]
    exact blockText_visibly (nodeOptionText_visibly names inner) (nodeOptionText_visibly names outer)
  | rawBlock inner outer =>
    simp only [Node.toStatement, statementText]
    exact blockText_visibly (nodeOptionText_visibly names inner) (nodeOptionText_visibly names outer)
  | mustache | partialCall | partialBlock | comment =>
    simp only [Node.toStatement, statementText]
    exact visibly_texts.refl _
  | content related =>
    simp only [Node.toStatement, statementText]
    exact congrArg Except.ok related.2.2.visible

theorem statementsText_visibly (names : List BlockParamPair) {nodes after : List Node}
    (alters : AltersList Content.Trimmed nodes after) :
    Bodies Visibly (statementsText mode names (statementList print nodes) : Body μ)
      (statementsText mode names (statementList print after)) := by
  intro scope
  cases alters with
  | nil => exact visibly_texts.refl _
  | cons here later =>
    simp only [statementList, statementsText]
    exact visibly_texts.append (statementText_visibly names here scope)
      (statementsText_visibly names later scope)

theorem statementOption_visibly (names : List BlockParamPair) {statements after : Option (List Node)}
    (alters : AltersStatements Content.Trimmed statements after) :
    Bodies Visibly (statementsText mode names (statementOption print statements) : Body μ)
      (statementsText mode names (statementOption print after)) := by
  cases alters with
  | none => exact fun scope => visibly_texts.refl _
  | some nodes => exact statementsText_visibly names nodes

theorem nodeText_visibly (names : List BlockParamPair) {program after : ProgramTree}
    (alters : program.Alters Content.Trimmed after) :
    Bodies Visibly (nodeText mode names (program.toProgramNode print) : Body μ)
      (nodeText mode names (after.toProgramNode print)) := by
  cases alters with
  | mk inside =>
    simp only [ProgramTree.toProgramNode, nodeText]
    exact statementOption_visibly _ inside

theorem nodeOptionText_visibly (names : List BlockParamPair) {program after : Option ProgramTree}
    (alters : AltersOption Content.Trimmed program after) :
    Bodies Visibly (nodeOptionText mode names (programOption print program) : Body μ)
      (nodeOptionText mode names (programOption print after)) := by
  cases alters with
  | none => exact fun scope => visibly_texts.refl _
  | some program => exact nodeText_visibly names program

end

end Trees

section Runs

variable {owned : Nat → Prop} {entries : StrMap (Value μ)} {context : Value μ}
  {machine machine' : Machine μ κ} {env : Env μ κ} {stored stored' : μ} {flags : Flags}
  {knownHelpers : List Str} {program trimmed : ProgramTree} {print : ProgramTree → Str} {fuel : Nat}

/-- The whitespace pass changes nothing that is visible: the modules of a tree before and after it
run to texts that differ in blanks only, or fail alike. -/
theorem whitespace_renders_visibly (done : program.accept true = some trimmed)
    (before : Template env stored flags knownHelpers (program.toProgramNode print))
    (after : Template env stored' flags knownHelpers (trimmed.toProgramNode print))
    (same : machine'.vm.flags = machine.vm.flags) (ready : Ready owned entries machine.vm)
    (ready' : Ready owned entries machine'.vm) (inert : context.Inert owned)
    (enough : nodeCalls (program.toProgramNode print) < fuel)
    (enough' : nodeCalls (trimmed.toProgramNode print) < fuel) :
    ∃ result result', Visibly result result' ∧
      Renders owned entries machine.vm.flags result
        (Exec.execute env (Exec.level env fuel) stored context machine).1 ∧
      Renders owned entries machine'.vm.flags result'
        (Exec.execute env (Exec.level env fuel) stored' context machine').1 := by
  have alters := Parser.ProgramTree.accept_trims done
  refine ⟨_, _, nodeText_visibly [] alters _, before.renders ready inert enough, ?_⟩
  rw [← same]
  exact after.renders ready' inert enough'

/-- The tree of `Hi {{~#each guests sep="-"}}{{@season}} {{~lookup this "name"}}{{/each}}` -/
def greetingTree (strip : StripFlags) (front inner : Str) : ProgramTree :=
  .mk 0 .zero (some [.content ⟨strip, .zero, front, bytes "Hi "⟩,
    .block (StripFlags.set ||| StripFlags.left)
      ⟨.zero, named false "each", [.name (named false "guests")],
        some (.mk .zero [.mk (bytes "sep") (.name (.literal .string .zero (bytes "-")))])⟩
      ⟨StripFlags.set ||| StripFlags.left, 0, 0⟩ false
      (some (.mk 0 .zero (some [
        .mustache 0 ⟨.zero, named true "season", [], none⟩ 0 false,
        .content ⟨strip, .zero, inner, bytes " "⟩,
        .mustache (StripFlags.set ||| StripFlags.left)
          ⟨.zero, named false "lookup", [.name (.path ⟨.zero, some (bytes "this"), [], 0, false,
            false, false⟩), .name (.literal .string .zero (bytes "name"))], none⟩ 0 false])
        none none false)) none])
    none none false

def writtenTree : ProgramTree := greetingTree 0 (bytes "Hi ") (bytes " ")

def trimmedTree : ProgramTree :=
  greetingTree (StripFlags.set ||| StripFlags.leftStripped) (bytes "Hi") []

theorem written_completes : Compiler.visitNode greetingEnv.platform (.start 0 [])
    (writtenTree.toProgramNode fun _ => []) = .completes := rfl

theorem trimmed_completes : Compiler.visitNode greetingEnv.platform (.start 0 [])
    (trimmedTree.toProgramNode fun _ => []) = .completes := rfl

theorem whitespace_renders_visibly_greeting : ∃ module module' result result',
    Visibly result result' ∧
      Renders (· < 3) greetingData 0 result (Exec.execute greetingEnv (Exec.level greetingEnv 9) module
        greetingContext (idleMachine 0)).1 ∧
      Renders (· < 3) greetingData 0 result' (Exec.execute greetingEnv (Exec.level greetingEnv 9) module'
        greetingContext (idleMachine 0)).1 := by
  have done : writtenTree.accept true = some trimmedTree := rfl
  obtain ⟨module, before⟩ :=
    exists_template 0 (writtenTree.toProgramNode fun _ => []) written_completes rfl
  obtain ⟨module', after⟩ :=
    exists_template 0 (trimmedTree.toProgramNode fun _ => []) trimmed_completes rfl
  obtain ⟨result, result', renders⟩ := whitespace_renders_visibly done before after rfl
    (greeting_ready 0) (greeting_ready 0) greeting_inert (show _ < 9 by decide) (by decide)
  exact ⟨module, module', result, result', renders⟩

end Runs

end HandlebarsC.Render
