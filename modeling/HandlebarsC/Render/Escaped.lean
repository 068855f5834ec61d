import HandlebarsC.Foundation.Results
import HandlebarsC.Render.Modes
import HandlebarsC.Value.Escaping

/-!
The texts that a template writes when all of its mustaches escape: what comes from the context is
in pieces without raw special characters, and the other pieces are the template's own.
-/

namespace HandlebarsC

open Escape
open Value (Fresh)

/-- A string that is not marked as safe, or no string -/
def Value.Plain : Value μ → Prop
  | .string _ safe => safe = false
  | _ => True

instance : Fresh (Value.Plain : Value μ → Prop) :=
  ⟨trivial, fun _ => trivial, fun _ => trivial, fun _ => rfl⟩

mutual

theorem Value.All.unmarked (value : Value μ) (plain : value.All Value.Plain) : value.Unmarked := by
  cases value with
  | string val safe => exact plain
  | array addr items => exact Value.AllItems.unmarked items plain.2
  | _ => trivial

theorem Value.AllItems.unmarked (items : List (Value μ)) (plain : Value.AllItems Value.Plain items) :
    Value.UnmarkedItems items := by
  cases items with
  | nil => trivial
  | cons item rest => exact ⟨Value.All.unmarked item plain.1, Value.AllItems.unmarked rest plain.2⟩

end

namespace Render

variable {μ κ : Type} {written : Str → Prop}

/-- A text made of pieces that the template has written itself and of escaped ones -/
abbrev Made (written : Str → Prop) (text : Str) : Prop := Pieced Special entities written text

theorem made_nil : Made written [] := .clean .nil

/-- A body whose texts are made so, in scopes without strings that are marked as safe -/
def Writing (written : Str → Prop) (body : Body μ) : Prop :=
  ∀ scope text, scope.All Value.Plain → body scope = .ok text → Made written text

theorem writing_noBody : Writing written (noBody : Body μ) := by
  intro scope text _ same
  cases same
  exact made_nil

section Builtins

variable {mode : Mode} {scope : Scope μ} {call : Invocation μ}

theorem Scope.All.plain {P : Value μ → Prop} [Fresh P] (platform : Platform) (holds : scope.All P) :
    (scope.plain platform).All P :=
  holds.enter platform holds.this (by simp) (by simp)

theorem Scope.All.iterate {P : Value μ → Prop} {after : Scope μ} {context : Value μ}
    (holds : scope.All P) (begun : scope.iterate context = .ok after) : after.All P := by
  rcases iterate_ok begun with ⟨rfl, -⟩ | ⟨addr, first, rest, -, rfl⟩
  · exact holds
  · exact ⟨holds.contexts, holds.data, holds.blockParams⟩

theorem eachText_made (programs : Writing written call.program) (plain : scope.All Value.Plain)
    {last index : Nat} {data : StrMap (Value μ)} {items : List (Option Str × Value μ)} {text : Str}
    (frame : ∀ entry ∈ data, entry.2.All Value.Plain) (elements : ∀ item ∈ items, item.2.All Value.Plain)
    (meant : eachText mode scope call last index data items = .ok text) : Made written text := by
  induction items generalizing index data text with
  | nil =>
    cases meant
    exact made_nil
  | cons item rest ih =>
    obtain ⟨key, value⟩ := item
    obtain ⟨here, later⟩ := List.forall_mem_cons.mp elements
    have keyPlain : (Exec.eachKey index key : Value μ).All Value.Plain := eachKey_all index key
    have inner := @eachData_all _ _ _ mode.platform _ frame index last _ keyPlain
    rw [eachText] at meant
    obtain ⟨first, wrote, meant⟩ := Results.bind_ok meant
    obtain ⟨others, rested, meant⟩ := Results.bind_ok meant
    cases meant
    refine .append (programs _ _ ?_ wrote) (ih inner later rested)
    refine plain.enter mode.platform here (by simpa using inner) ?_
    simp only [Option.mem_def, Option.some.injEq, forall_eq']
    intro item member
    rcases List.mem_cons.mp member with rfl | member
    · exact here
    · rw [List.mem_singleton.mp member]
      exact keyPlain

/-- Blocks of a call that are made so -/
structure WritingCall (written : Str → Prop) (call : Invocation μ) : Prop where
  program : Writing written call.program
  inverse : Writing written call.inverse
  args : ∀ value ∈ call.args, value.All Value.Plain

theorem eachBlock_made (writing : WritingCall written call) (plain : scope.All Value.Plain)
    {context : Value μ} {text : Str} (inside : context.All Value.Plain)
    (meant : eachBlock mode scope call context = .ok text) : Made written text := by
  have elements := elements_all inside
  unfold eachBlock at meant
  cases same : Exec.elements context with
  | nil =>
    rw [same] at meant
    exact writing.inverse _ _ (plain.plain mode.platform) meant
  | cons first rest =>
    rw [same] at meant elements
    obtain ⟨inner, begun, meant⟩ := Results.bind_ok meant
    have within := plain.iterate begun
    exact eachText_made writing.program within (updateAll_all (by simp) within.data) elements meant

theorem ifBlock_made (writing : WritingCall written call) (plain : scope.All Value.Plain)
    {argument : Value μ} {text : Str} (meant : ifBlock mode scope call argument = .ok text) :
    Made written text := by
  unfold ifBlock at meant
  split at meant
  · exact writing.program _ _ (plain.plain mode.platform) meant
  · exact writing.inverse _ _ (plain.plain mode.platform) meant

theorem withBlock_made (writing : WritingCall written call) (plain : scope.All Value.Plain)
    {argument : Value μ} {text : Str} (inside : argument.All Value.Plain)
    (meant : withBlock mode scope call argument = .ok text) : Made written text := by
  unfold withBlock at meant
  split at meant
  · exact writing.inverse _ _ (plain.enter mode.platform inside (by simp) (by simp)) meant
  · refine writing.program _ _ (plain.enter mode.platform inside ?_ ?_) meant
    · simpa using plain.data
    · simpa using inside

theorem valueBlock_made (writing : WritingCall written call) (plain : scope.All Value.Plain)
    {value : Value μ} {text : Str} (inside : value.All Value.Plain)
    (meant : valueBlock mode scope call value = .ok text) : Made written text := by
  unfold valueBlock at meant
  split at meant
  · exact writing.program _ _ (plain.plain mode.platform) meant
  · split at meant
    · exact writing.inverse _ _ (plain.plain mode.platform) meant
    · split at meant
      · exact eachBlock_made writing plain inside meant
      · exact writing.program _ _ (plain.enter mode.platform inside (by simp) (by simp)) meant

theorem textValue_made {result : Meaning Str} {value : Value μ}
    (made : ∀ text, result = .ok text → Made written text) (meant : textValue result = .ok value) :
    Made written (value.expression mode.platform false) := by
  obtain ⟨text, wrote, meant⟩ := Results.bind_ok meant
  cases meant
  rw [Value.expression]
  exact made text wrote

/-- What a built-in helper returns for a block is the text of its blocks, unless it is `lookup`. -/
theorem callBuiltin_made (writing : WritingCall written call) (plain : scope.All Value.Plain)
    {builtin : Builtin} {value : Value μ} (other : builtin ≠ .lookup)
    (meant : callBuiltin mode scope call builtin = .ok value) :
    Made written (value.expression mode.platform false) := by
  have args := writing.args
  have nothing : Made written ((.null : Value μ).expression mode.platform false) := by
    rw [Value.expression]
    exact made_nil
  unfold callBuiltin at meant
  split at meant
  · exact textValue_made (fun text => writing.inverse _ _ (plain.plain mode.platform)) meant
  · rename_i value rest given
    exact textValue_made (fun text => valueBlock_made writing plain (args value (by simp [given]))) meant
  · cases meant
    exact nothing
  · split at meant <;> cases meant
  · cases meant
  · rename_i argument rest given
    exact textValue_made (fun text => eachBlock_made writing plain (args argument (by simp [given]))) meant
  · exact textValue_made (fun text => ifBlock_made writing plain) meant
  · cases meant
  · exact textValue_made (fun text => ifBlock_made writing plain) meant
  · cases meant
  · rename_i argument given
    exact textValue_made (fun text => withBlock_made writing plain (args argument (by simp [given]))) meant
  · cases meant
  · split at meant
    · cases meant
      exact nothing
    · cases meant
  · exact absurd rfl other
  · exact absurd rfl other
  · cases meant
    exact nothing

end Builtins

section Blocks

variable {mode : Mode} {names : List BlockParamPair} {scope : Scope μ} {loc : LocInfo}
  {path : PathNode} {program inverse : Body μ}

/-- No block of the path is a call of `lookup`, which returns what it finds. -/
def callsLookup (path : PathNode) : Bool :=
  path.idPart == some (bytes "lookup") || path.original == some (bytes "lookup")

theorem builtinsFind_lookup {name : Str} (found : builtinsFind name = some .lookup) :
    name = bytes "lookup" := by
  by_contra apart
  unfold builtinsFind at found
  simp [apart] at found
  grind

theorem helperValue_made (plain : scope.All Value.Plain) (other : callsLookup path = false)
    (programs : Writing written program) (inverses : Writing written inverse)
    {args : List (Value μ)} {hash : StrMap (Value μ)} {value : Value μ}
    (values : ∀ value ∈ args, value.All Value.Plain)
    (meant : helperValue mode names scope loc path args hash program inverse = .ok value) :
    Made written (value.expression mode.platform false) := by
  obtain ⟨notId, notOriginal⟩ : ¬path.idPart = some (bytes "lookup") ∧
      ¬path.original = some (bytes "lookup") := by
    simpa [callsLookup] using other
  unfold helperValue at meant
  dsimp only at meant
  split at meant
  · split at meant
    · rename_i builtin found
      refine callBuiltin_made ⟨programs, inverses, values⟩ plain ?_ meant
      rintro rfl
      have named := builtinsFind_lookup found
      cases present : path.idPart with
      | none =>
        rw [present] at named
        cases named
      | some name =>
        rw [present] at named notId
        exact notId (congrArg some named)
    · cases meant
  · obtain ⟨_, -, meant⟩ := Results.bind_ok meant
    refine callBuiltin_made ⟨programs, inverses, values⟩ plain ?_ meant
    intro isLookup
    unfold namedBuiltin at isLookup
    split at isLookup
    · cases present : path.original with
      | none =>
        rw [present] at isLookup
        cases isLookup
      | some name =>
        rw [present, Option.bind_some] at isLookup
        cases found : builtinsFind name with
        | none =>
          rw [found] at isLookup
          cases isLookup
        | some builtin =>
          rw [found] at isLookup
          cases isLookup
          rw [present] at notOriginal
          exact notOriginal (congrArg some (builtinsFind_lookup found))
    · cases isLookup

theorem blockText_made (plain : scope.All Value.Plain) (other : callsLookup path = false)
    (programs : Writing written program) (inverses : Writing written inverse)
    {args : Meaning (List (Value μ))} {hash : Meaning (StrMap (Value μ))} {isHelperExpression : Bool}
    {text : Str} (values : ∀ list, args = .ok list → ∀ value ∈ list, value.All Value.Plain)
    (meant : blockText mode names scope loc path args hash isHelperExpression program inverse = .ok text) :
    Made written text := by
  by_cases helper : kind mode names path isHelperExpression = .helper
  · unfold blockText at meant
    rw [helper] at meant
    obtain ⟨value, called, meant⟩ := Results.bind_ok meant
    obtain ⟨list, given, called⟩ := Results.bind_ok called
    obtain ⟨entries, -, called⟩ := Results.bind_ok called
    cases meant
    exact helperValue_made plain other programs inverses (values list given) called
  · rw [blockText_value helper] at meant
    obtain ⟨value, looked, meant⟩ := Results.bind_ok meant
    have inside : value.All Value.Plain := pathValue_all plain looked
    obtain ⟨result, wrote, meant⟩ := Results.bind_ok meant
    cases meant
    have writing : WritingCall written ⟨none, [value], [], program, inverse⟩ :=
      ⟨programs, inverses, fun _ member => List.mem_singleton.mp member ▸ inside⟩
    exact textValue_made (fun text => valueBlock_made writing plain inside) wrote

end Blocks

section Templates

mutual

/-- The texts that a statement writes itself -/
def statementContents : Statement → List Str
  | .block _ _ _ _ program inverse _ | .rawBlock _ _ _ _ program inverse =>
    nodeOptionContents program ++ nodeOptionContents inverse
  | .content _ value => [value]
  | .mustache .. | .partialCall .. | .partialBlock .. | .comment .. => []

def statementsContents : List Statement → List Str
  | [] => []
  | statement :: rest => statementContents statement ++ statementsContents rest

def nodeContents : ProgramNode → List Str
  | .mk _ _ statements _ _ => statementsContents statements

def nodeOptionContents : Option ProgramNode → List Str
  | none => []
  | some node => nodeContents node

end

mutual

/-- All mustaches escape, and no block is a call of `lookup`. -/
def statementEscapes : Statement → Bool
  | .block _ path _ _ program inverse _ | .rawBlock _ path _ _ program inverse =>
    !callsLookup path.toPath && nodeOptionEscapes program && nodeOptionEscapes inverse
  | .mustache _ _ _ _ unescaped _ => !unescaped
  | .partialCall .. | .partialBlock .. | .content .. | .comment .. => true

def statementsEscape : List Statement → Bool
  | [] => true
  | statement :: rest => statementEscapes statement && statementsEscape rest

def nodeEscapes : ProgramNode → Bool
  | .mk _ _ statements _ _ => statementsEscape statements

def nodeOptionEscapes : Option ProgramNode → Bool
  | none => true
  | some node => nodeEscapes node

end

variable {mode : Mode}

mutual

theorem statementText_made (formats : FormatsNumbers mode.platform)
    (escapes : mode.compileFlags.has Flag.noEscape = false) (names : List BlockParamPair)
    (statement : Statement) (written : Str → Prop) (safe : statementEscapes statement = true)
    (contents : ∀ text ∈ statementContents statement, written text) :
    Writing written (statementText mode names statement : Body μ) := by
  intro scope text plain meant
  cases statement with
  | content loc value =>
    simp only [statementText] at meant
    cases meant
    exact .given (contents _ (by simp [statementContents]))
  | comment => exact writing_noBody scope text plain (by simpa only [statementText] using meant)
  | mustache loc path params hash unescaped isDecorator =>
    simp only [statementText] at meant
    obtain ⟨value, looked, meant⟩ := Results.bind_ok meant
    cases meant
    have inside : value.All Value.Plain :=
      expression_all plain (fun values => paramValues_all plain params) looked
    rw [escapes, show unescaped = false by simpa [statementEscapes] using safe]
    exact .clean (value.clean_expression formats (Value.All.unmarked value inside))
  | block loc path params hash program inverse isDecorator =>
    obtain ⟨⟨other, inner⟩, outer⟩ : (callsLookup path.toPath = false ∧
        nodeOptionEscapes program = true) ∧ nodeOptionEscapes inverse = true := by
      simpa [statementEscapes] using safe
    simp only [statementText] at meant
    simp only [statementContents, List.mem_append] at contents
    exact blockText_made plain other
      (nodeOptionText_made formats escapes names program written inner fun text member =>
        contents text (.inl member))
      (nodeOptionText_made formats escapes names inverse written outer fun text member =>
        contents text (.inr member))
      (fun values => paramValues_all plain params) meant
  | rawBlock loc path params hash program inverse =>
    obtain ⟨⟨other, inner⟩, outer⟩ : (callsLookup path.toPath = false ∧
        nodeOptionEscapes program = true) ∧ nodeOptionEscapes inverse = true := by
      simpa [statementEscapes] using safe
    simp only [statementText] at meant
    simp only [statementContents, List.mem_append] at contents
    exact blockText_made plain other
      (nodeOptionText_made formats escapes names program written inner fun text member =>
        contents text (.inl member))
      (nodeOptionText_made formats escapes names inverse written outer fun text member =>
        contents text (.inr member))
      (fun values => paramValues_all plain params) meant
  | partialCall | partialBlock =>
    simp only [statementText] at meant
    cases meant

theorem statementsText_made (formats : FormatsNumbers mode.platform)
    (escapes : mode.compileFlags.has Flag.noEscape = false) (names : List BlockParamPair)
    (statements : List Statement) (written : Str → Prop) (safe : statementsEscape statements = true)
    (contents : ∀ text ∈ statementsContents statements, written text) :
    Writing written (statementsText mode names statements : Body μ) := by
  intro scope text plain meant
  cases statements with
  | nil => exact writing_noBody scope text plain meant
  | cons statement rest =>
    obtain ⟨here, later⟩ : statementEscapes statement = true ∧ statementsEscape rest = true := by
      simpa [statementsEscape] using safe
    simp only [statementsText] at meant
    simp only [statementsContents, List.mem_append] at contents
    obtain ⟨first, wrote, meant⟩ := Results.bind_ok meant
    obtain ⟨others, rested, meant⟩ := Results.bind_ok meant
    cases meant
    exact .append
      (statementText_made formats escapes names statement written here
        (fun text member => contents text (.inl member)) scope first plain wrote)
      (statementsText_made formats escapes names rest written later
        (fun text member => contents text (.inr member)) scope others plain rested)

theorem nodeText_made (formats : FormatsNumbers mode.platform)
    (escapes : mode.compileFlags.has Flag.noEscape = false) (names : List BlockParamPair)
    (node : ProgramNode) (written : Str → Prop) (safe : nodeEscapes node = true)
    (contents : ∀ text ∈ nodeContents node, written text) :
    Writing written (nodeText mode names node : Body μ) := by
  obtain ⟨loc, printed, statements, blockParam1, blockParam2⟩ := node
  rw [nodeText]
  exact statementsText_made formats escapes _ statements written safe contents

theorem nodeOptionText_made (formats : FormatsNumbers mode.platform)
    (escapes : mode.compileFlags.has Flag.noEscape = false) (names : List BlockParamPair)
    (node : Option ProgramNode) (written : Str → Prop) (safe : nodeOptionEscapes node = true)
    (contents : ∀ text ∈ nodeOptionContents node, written text) :
    Writing written (nodeOptionText mode names node : Body μ) := by
  cases node with
  | none => exact writing_noBody
  | some node => exact nodeText_made formats escapes names node written safe contents

end

variable {owned : Nat → Prop} {entries : StrMap (Value μ)} {context : Value μ}
  {machine after : Machine μ κ} {env : Env μ κ} {stored : μ} {flags : Flags}
  {knownHelpers : List Str} {node : ProgramNode} {fuel : Nat} {text : Str}

/-- Values cannot break out of a template whose mustaches all escape: what a run of its module
writes between the texts of the template has no raw special character. -/
theorem template_escapes (template : Template env stored flags knownHelpers node)
    (formats : FormatsNumbers env.platform) (escapes : flags.has Flag.noEscape = false)
    (safe : nodeEscapes node = true) (ready : Ready owned entries machine.vm)
    (inert : context.Inert owned) (plain : context.All Value.Plain)
    (dataPlain : ∀ entry ∈ entries, entry.2.All Value.Plain) (enough : nodeCalls node < fuel)
    (ran : (Exec.execute env (Exec.level env fuel) stored context machine).1 = .ok (some text) after) :
    Made (· ∈ nodeContents node) text := by
  have renders := template.renders ready inert enough
  rw [ran] at renders
  have options : (modeOf env.platform flags knownHelpers machine.vm.flags).compileFlags.has
      Flag.noEscape = false := (has_all (by decide)).trans escapes
  exact nodeText_made formats options [] node _ safe (fun _ member => member) _ text
    ⟨by simpa using plain, dataPlain, by simp⟩ renders.returned

theorem greeting_formats : FormatsNumbers greetingEnv.platform := by
  intro _ char member
  obtain rfl : char = 48 := List.mem_singleton.mp (show char ∈ [48] from member)
  exact .inl rfl

theorem template_escapes_greeting : Made (· ∈ nodeContents greeting) (bytes "Hi 0May&lt;b&gt; 1MayBo Al") := by
  obtain ⟨module, template⟩ := exists_template 0 greeting greeting_completes greeting_covered
  have plain : greetingContext.All Value.Plain := by
    simp [greetingContext, guest, Value.All, Value.AllEntries, Value.AllItems, Value.Plain]
  have dataPlain : ∀ entry ∈ greetingData, entry.2.All Value.Plain := by
    simp [greetingData, Value.All, Value.Plain]
  obtain ⟨after, ran, -⟩ := greeting_runs template greeting_inert greeting_means
  exact template_escapes template greeting_formats rfl rfl (greeting_ready 0) greeting_inert plain
    dataPlain greeting_calls ran

end Templates

end Render

end HandlebarsC
