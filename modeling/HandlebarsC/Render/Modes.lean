import HandlebarsC.Foundation.Results
import HandlebarsC.Render.Templates

/-!
What the options of the compiler and the flags of the VM change in a template: all they can change
is what its paths mean and how parameters and mustaches are compiled.
-/

namespace HandlebarsC

open Results

namespace Render

variable {μ κ : Type} {R : ∀ {α : Type}, Meaning α → Meaning α → Prop}

/-- Bodies that are related in every scope -/
def Bodies (T : Meaning Str → Meaning Str → Prop) (first second : Body μ) : Prop :=
  ∀ scope, T (first scope) (second scope)

section Builtins

variable {mode : Mode} {scope : Scope μ} {call : Invocation μ} {program inverse : Body μ}

/-- A relation between texts that are put together in the same way -/
structure Texts (T : Meaning Str → Meaning Str → Prop) : Prop where
  refl (text : Meaning Str) : T text text
  after {α : Type} (first : Meaning α) {next other : α → Meaning Str}
    (rest : ∀ value, T (next value) (other value)) : T (first >>= next) (first >>= other)
  append {first second first' second' : Meaning Str} (start : T first first') (rest : T second second') :
    T (do
        let text ← first
        let others ← second
        pure (text ++ others))
      (do
        let text ← first'
        let others ← second'
        pure (text ++ others))

theorem texts (congruence : Congruence R) : Texts (R (α := Str)) where
  refl := congruence.refl
  after first _ _ rest := congruence.bind (congruence.refl first) fun value _ => rest value
  append start rest := congruence.bind start fun _ _ => congruence.map rest _

variable {T : Meaning Str → Meaning Str → Prop}

/-- The call with other blocks -/
def Invocation.blocks (call : Invocation μ) (program inverse : Body μ) : Invocation μ :=
  { call with program := program, inverse := inverse }

theorem eachText_related (texts : Texts T) (programs : Bodies T call.program program)
    (last index : Nat) (data : StrMap (Value μ)) (items : List (Option Str × Value μ)) :
    T (eachText mode scope call last index data items)
      (eachText mode scope (call.blocks program inverse) last index data items) := by
  induction items generalizing index data with
  | nil => exact texts.refl _
  | cons item rest ih =>
    obtain ⟨key, value⟩ := item
    unfold eachText
    exact texts.append (programs _) (ih (index + 1) _)

theorem eachBlock_related (texts : Texts T) (programs : Bodies T call.program program)
    (inverses : Bodies T call.inverse inverse) (context : Value μ) :
    T (eachBlock mode scope call context)
      (eachBlock mode scope (call.blocks program inverse) context) := by
  unfold eachBlock
  cases Exec.elements context with
  | nil => exact inverses _
  | cons first rest =>
    exact texts.after _ fun scope => eachText_related texts programs _ _ _ _

theorem ifBlock_related (programs : Bodies T call.program program)
    (inverses : Bodies T call.inverse inverse) (argument : Value μ) :
    T (ifBlock mode scope call argument)
      (ifBlock mode scope (call.blocks program inverse) argument) := by
  unfold ifBlock
  change T _ ((if Exec.chosen mode.platform call.hash argument then program else inverse) _)
  split
  · exact programs _
  · exact inverses _

theorem withBlock_related (programs : Bodies T call.program program)
    (inverses : Bodies T call.inverse inverse) (argument : Value μ) :
    T (withBlock mode scope call argument)
      (withBlock mode scope (call.blocks program inverse) argument) := by
  unfold withBlock
  split
  · exact inverses _
  · exact programs _

theorem valueBlock_related (texts : Texts T) (programs : Bodies T call.program program)
    (inverses : Bodies T call.inverse inverse) (value : Value μ) :
    T (valueBlock mode scope call value)
      (valueBlock mode scope (call.blocks program inverse) value) := by
  unfold valueBlock
  split
  · exact programs _
  · split
    · exact inverses _
    · split
      · exact eachBlock_related texts programs inverses value
      · exact programs _

/-- A built-in helper calls its blocks. -/
theorem callBuiltin_related (texts : Texts T) (programs : Bodies T call.program program)
    (inverses : Bodies T call.inverse inverse) {V : Meaning (Value μ) → Meaning (Value μ) → Prop}
    (same : ∀ value, V value value)
    (textual : ∀ {first second : Meaning Str}, T first second → V (textValue first) (textValue second))
    (builtin : Builtin) :
    V (callBuiltin mode scope call builtin)
      (callBuiltin mode scope (call.blocks program inverse) builtin) := by
  have given : (call.blocks program inverse).args = call.args := rfl
  have named : (call.blocks program inverse).name = call.name := rfl
  unfold callBuiltin
  rw [given, named]
  cases builtin with
  | blockHelperMissing =>
    cases call.args with
    | nil => exact textual (inverses _)
    | cons value rest => exact textual (valueBlock_related texts programs inverses value)
  | each =>
    cases call.args with
    | nil => exact same _
    | cons value rest => exact textual (eachBlock_related texts programs inverses value)
  | ifHelper =>
    rcases call.args with _ | ⟨value, _ | ⟨second, rest⟩⟩
    · exact same _
    · exact textual (ifBlock_related programs inverses value)
    · exact same _
  | «unless» =>
    rcases call.args with _ | ⟨value, _ | ⟨second, rest⟩⟩
    · exact same _
    · exact textual (ifBlock_related programs inverses _)
    · exact same _
  | «with» =>
    rcases call.args with _ | ⟨value, _ | ⟨second, rest⟩⟩
    · exact same _
    · exact textual (withBlock_related programs inverses value)
    · exact same _
  | helperMissing =>
    cases call.args with
    | nil | cons => exact same _
  | lookup => rcases call.args with _ | ⟨context, _ | ⟨field, rest⟩⟩ <;> exact same _
  | log | setDelimiters => exact same _

end Builtins

/-- Two modes on one platform with the same known helpers, which compile parameters and mustaches
alike and in which paths have related values -/
structure Alike (μ : Type) (R : ∀ {α : Type}, Meaning α → Meaning α → Prop) (first second : Mode) :
    Prop where
  platform : second.platform = first.platform
  knownHelpers : second.knownHelpers = first.knownHelpers
  stringParams : second.compileFlags.has Flag.stringParams = first.compileFlags.has Flag.stringParams
  trackIds : second.compileFlags.has Flag.trackIds = first.compileFlags.has Flag.trackIds
  noEscape : second.compileFlags.has Flag.noEscape = first.compileFlags.has Flag.noEscape
  paths : ∀ (names : List BlockParamPair) (scope : Scope μ) (path : PathNode),
    R (pathValue first names scope path) (pathValue second names scope path)

section Expressions

variable {first second : Mode} {names : List BlockParamPair} {scope : Scope μ} {loc : LocInfo}
  {path : PathNode} {isHelperExpression : Bool}

theorem eachText_platform (same : second.platform = first.platform) (call : Invocation μ)
    (last index : Nat) (data : StrMap (Value μ)) (items : List (Option Str × Value μ)) :
    eachText second scope call last index data items =
      eachText first scope call last index data items := by
  induction items generalizing index data with
  | nil => rfl
  | cons item rest ih =>
    obtain ⟨key, value⟩ := item
    rw [eachText, eachText, same]
    simp only [ih]

theorem eachBlock_platform (same : second.platform = first.platform) (call : Invocation μ)
    (context : Value μ) :
    eachBlock second scope call context = eachBlock first scope call context := by
  unfold eachBlock
  simp only [same, eachText_platform same]

theorem valueBlock_platform (same : second.platform = first.platform) (call : Invocation μ)
    (value : Value μ) :
    valueBlock second scope call value = valueBlock first scope call value := by
  unfold valueBlock
  rw [same, eachBlock_platform same]

/-- The built-in helpers depend on nothing but the platform. -/
theorem callBuiltin_platform (same : second.platform = first.platform) (call : Invocation μ)
    (builtin : Builtin) :
    callBuiltin second scope call builtin = callBuiltin first scope call builtin := by
  unfold callBuiltin ifBlock withBlock lookupValue
  simp only [same, eachBlock_platform same, valueBlock_platform same]

theorem Alike.isKnownHelper (alike : Alike μ R first second) :
    (second.compiler names).isKnownHelper path = (first.compiler names).isKnownHelper path := by
  unfold Compiler.isKnownHelper Mode.compiler
  rw [alike.knownHelpers]

/-- An expression calls a helper in both modes or in none. -/
theorem Alike.kind (alike : Alike μ R first second) :
    kind second names path isHelperExpression = .helper ↔
      kind first names path isHelperExpression = .helper := by
  unfold Render.kind Compiler.classifySexpr
  rw [alike.isKnownHelper, alike.platform]
  dsimp only [Mode.compiler]
  split
  · simp
  · split
    · grind
    · simp

theorem Alike.argument (alike : Alike μ R first second) (congruence : Congruence R)
    {value other : Meaning (Value μ)} (related : R value other) :
    R (argument first value) (argument second other) := by
  unfold Render.argument
  rw [alike.stringParams, alike.trackIds]
  split
  · exact congruence.refl _
  · split
    · exact congruence.refl _
    · exact related

variable {program inverse program' inverse' : Body μ}

theorem Alike.builtin (alike : Alike μ R first second) (congruence : Congruence R)
    (programs : Bodies R program program') (inverses : Bodies R inverse inverse') (name : Option Str)
    (args : List (Value μ)) (hash : StrMap (Value μ)) (builtin : Builtin) :
    R (callBuiltin first scope ⟨name, args, hash, program, inverse⟩ builtin)
      (callBuiltin second scope ⟨name, args, hash, program', inverse'⟩ builtin) := by
  rw [callBuiltin_platform alike.platform]
  exact callBuiltin_related (texts congruence) programs inverses congruence.refl
    (fun related => congruence.map related _) builtin

theorem Alike.helperValue (alike : Alike μ R first second) (congruence : Congruence R)
    (programs : Bodies R program program') (inverses : Bodies R inverse inverse')
    (args : List (Value μ)) (hash : StrMap (Value μ)) :
    R (helperValue first names scope loc path args hash program inverse)
      (helperValue second names scope loc path args hash program' inverse') := by
  unfold Render.helperValue
  dsimp only
  rw [alike.isKnownHelper]
  split
  · split
    · exact alike.builtin congruence programs inverses _ args hash _
    · exact congruence.refl _
  · refine congruence.bind (alike.paths _ _ _) fun _ _ => ?_
    exact alike.builtin congruence programs inverses _ args hash _

variable {args args' : Meaning (List (Value μ))} {hash hash' : Meaning (StrMap (Value μ))}

theorem Alike.callHelper (alike : Alike μ R first second) (congruence : Congruence R)
    (params : R args args') (pairs : R hash hash') (programs : Bodies R program program')
    (inverses : Bodies R inverse inverse') :
    R (callHelper first names scope loc path args hash program inverse)
      (callHelper second names scope loc path args' hash' program' inverse') := by
  refine congruence.bind params fun values _ => congruence.bind pairs fun entries _ => ?_
  exact alike.helperValue congruence programs inverses values entries

/-- What is no helper is a path. -/
theorem expression_value {mode : Mode} (plain : kind mode names path isHelperExpression ≠ .helper) :
    expression mode names scope loc path args hash isHelperExpression =
      pathValue mode names scope { path with strict := true } := by
  unfold expression
  cases sort : kind mode names path isHelperExpression with
  | helper => exact absurd sort plain
  | simple | ambig => rfl

theorem Alike.expression (alike : Alike μ R first second) (congruence : Congruence R)
    (params : R args args') (pairs : R hash hash') :
    R (expression first names scope loc path args hash isHelperExpression)
      (expression second names scope loc path args' hash' isHelperExpression) := by
  have nothing : Bodies R (noBody : Body μ) noBody := fun _ => congruence.refl _
  have same := @Alike.kind _ _ _ _ names path isHelperExpression alike
  by_cases helper : Render.kind first names path isHelperExpression = .helper
  · unfold Render.expression
    rw [helper, same.mpr helper]
    exact alike.callHelper congruence params pairs nothing nothing
  · rw [expression_value helper, expression_value fun also => helper (same.mp also)]
    exact alike.paths _ _ _

theorem Alike.blockText (alike : Alike μ R first second) (congruence : Congruence R)
    (params : R args args') (pairs : R hash hash') (programs : Bodies R program program')
    (inverses : Bodies R inverse inverse') :
    R (blockText first names scope loc path args hash isHelperExpression program inverse)
      (blockText second names scope loc path args' hash' isHelperExpression program' inverse') := by
  have same := @Alike.kind _ _ _ _ names path isHelperExpression alike
  by_cases helper : Render.kind first names path isHelperExpression = .helper
  · unfold Render.blockText
    rw [helper, same.mpr helper, alike.platform]
    exact congruence.map (alike.callHelper congruence params pairs programs inverses) _
  · rw [blockText_value helper, blockText_value fun also => helper (same.mp also)]
    refine congruence.bind (alike.paths _ _ _) fun value _ => ?_
    unfold valueBlockText
    rw [alike.platform, valueBlock_platform alike.platform]
    have blocks : R (valueBlock first scope ⟨none, [value], [], program, inverse⟩ value)
        (valueBlock first scope ⟨none, [value], [], program', inverse'⟩ value) :=
      valueBlock_related (texts congruence) programs inverses value
    exact congruence.map (congruence.map blocks _) _

end Expressions

section Templates

variable {first second : Mode}

mutual

theorem paramValue_related (alike : Alike μ R first second) (congruence : Congruence R)
    (names : List BlockParamPair) (scope : Scope μ) (param : Param) :
    R (paramValue first names scope param) (paramValue second names scope param) := by
  cases param with
  | name name =>
    rw [paramValue, paramValue]
    cases name with
    | path path => exact alike.paths names scope path
    | literal type loc text =>
      unfold nameValue
      rw [alike.platform]
      exact congruence.refl _
  | sexpr loc path params hash =>
    rw [paramValue, paramValue]
    exact alike.expression congruence (paramValues_related alike congruence names scope params)
      (hashValues_related alike congruence names scope hash)

theorem paramValues_related (alike : Alike μ R first second) (congruence : Congruence R)
    (names : List BlockParamPair) (scope : Scope μ) (params : List Param) :
    R (paramValues first names scope params) (paramValues second names scope params) := by
  cases params with
  | nil => exact congruence.refl _
  | cons param rest =>
    rw [paramValues, paramValues]
    refine congruence.bind (alike.argument congruence
      (paramValue_related alike congruence names scope param)) fun value _ => ?_
    exact congruence.map (paramValues_related alike congruence names scope rest) _

theorem hashValues_related (alike : Alike μ R first second) (congruence : Congruence R)
    (names : List BlockParamPair) (scope : Scope μ) (hash : Option HashNode) :
    R (hashValues first names scope hash) (hashValues second names scope hash) := by
  cases hash with
  | none => exact congruence.refl _
  | some hash =>
    rw [hashValues, hashValues, alike.platform]
    exact congruence.map (hashPairs_related alike congruence names scope hash) _

theorem hashPairs_related (alike : Alike μ R first second) (congruence : Congruence R)
    (names : List BlockParamPair) (scope : Scope μ) (hash : HashNode) :
    R (hashPairs first names scope hash) (hashPairs second names scope hash) := by
  obtain ⟨loc, pairs⟩ := hash
  rw [hashPairs, hashPairs]
  exact pairValues_related alike congruence names scope pairs

theorem pairValues_related (alike : Alike μ R first second) (congruence : Congruence R)
    (names : List BlockParamPair) (scope : Scope μ) (pairs : List HashPair) :
    R (pairValues first names scope pairs) (pairValues second names scope pairs) := by
  cases pairs with
  | nil => exact congruence.refl _
  | cons pair rest =>
    obtain ⟨key, param⟩ := pair
    rw [pairValues, pairValues]
    refine congruence.bind (alike.argument congruence
      (paramValue_related alike congruence names scope param)) fun value _ => ?_
    exact congruence.map (pairValues_related alike congruence names scope rest) _

end

mutual

theorem statementText_related (alike : Alike μ R first second) (congruence : Congruence R)
    (names : List BlockParamPair) (statement : Statement) :
    Bodies R (statementText first names statement : Body μ) (statementText second names statement) := by
  intro scope
  cases statement with
  | block loc path params hash program inverse isDecorator =>
    simp only [statementText]
    exact alike.blockText congruence (paramValues_related alike congruence names scope params)
      (hashValues_related alike congruence names scope hash)
      (nodeOptionText_related alike congruence names program)
      (nodeOptionText_related alike congruence names inverse)
  | rawBlock loc path params hash program inverse =>
    simp only [statementText]
    exact alike.blockText congruence (paramValues_related alike congruence names scope params)
      (hashValues_related alike congruence names scope hash)
      (nodeOptionText_related alike congruence names program)
      (nodeOptionText_related alike congruence names inverse)
  | mustache loc path params hash unescaped isDecorator =>
    simp only [statementText, alike.platform, alike.noEscape]
    exact congruence.map (alike.expression congruence
      (paramValues_related alike congruence names scope params)
      (hashValues_related alike congruence names scope hash)) _
  | content | comment | partialCall | partialBlock =>
    simp only [statementText]
    exact congruence.refl _

theorem statementsText_related (alike : Alike μ R first second) (congruence : Congruence R)
    (names : List BlockParamPair) (statements : List Statement) :
    Bodies R (statementsText first names statements : Body μ)
      (statementsText second names statements) := by
  intro scope
  cases statements with
  | nil => exact congruence.refl _
  | cons statement rest =>
    simp only [statementsText]
    refine congruence.bind (statementText_related alike congruence names statement scope)
      fun text _ => ?_
    exact congruence.map (statementsText_related alike congruence names rest scope) _

theorem nodeText_related (alike : Alike μ R first second) (congruence : Congruence R)
    (names : List BlockParamPair) (node : ProgramNode) :
    Bodies R (nodeText first names node : Body μ) (nodeText second names node) := by
  obtain ⟨loc, printed, statements, blockParam1, blockParam2⟩ := node
  rw [nodeText, nodeText]
  exact statementsText_related alike congruence _ statements

theorem nodeOptionText_related (alike : Alike μ R first second) (congruence : Congruence R)
    (names : List BlockParamPair) (node : Option ProgramNode) :
    Bodies R (nodeOptionText first names node : Body μ) (nodeOptionText second names node) := by
  cases node with
  | none => exact fun _ => congruence.refl _
  | some node => exact nodeText_related alike congruence names node

end

/-- Modes that are alike give related texts. -/
theorem render_related (alike : Alike μ R first second) (congruence : Congruence R)
    (node : ProgramNode) (context : Value μ) (data : StrMap (Value μ)) :
    R (render first node context data) (render second node context data) :=
  nodeText_related alike congruence [] node _

end Templates

section Strictness

variable {platform : Platform} {strict assume strict' assume' : Bool}

theorem walk_found {index : Int} {parts : List Str} {value child : Value μ}
    (found : walk platform strict assume index parts value = .found child) :
    walk platform strict' assume' index parts value = .found child := by
  induction parts generalizing value index with
  | nil => exact found
  | cons part rest ih =>
    rw [walk] at found ⊢
    split at found
    · rename_i isMap
      rw [if_pos isMap]
      cases member : entry platform value part with
      | some next =>
        rw [member] at found
        exact ih found
      | none =>
        rw [member] at found
        dsimp only at found
        split at found <;> cases found
    · rename_i notMap
      rw [if_neg notMap]
      split at found
      · rename_i isArray
        rw [if_pos isArray]
        rcases item : indexed index part value with ⟨last, next⟩
        rw [item] at found
        cases next with
        | some next => exact ih found
        | none =>
          dsimp only at found
          split at found <;> cases found
      · split at found <;> cases found

/-- What is missing is missing in a laxer walk too. -/
theorem walk_missing {index : Int} {parts : List Str} {value : Value μ} {part : Str}
    (laxer : strict' = true → strict = true) (laxer' : assume' = true → assume = true)
    (missing : walk platform strict assume index parts value = .missing part) :
    walk platform strict' assume' index parts value = .missing part := by
  have less : ∀ {firm lax rest : Bool}, (lax = true → firm = true) → ¬(firm && rest) = true →
      ¬(lax && rest) = true := by
    intro firm lax rest laxer
    cases firm <;> cases lax <;> cases rest <;> simp at laxer ⊢
  induction parts generalizing value index with
  | nil => cases missing
  | cons first rest ih =>
    rw [walk] at missing ⊢
    split at missing
    · rename_i isMap
      rw [if_pos isMap]
      cases member : entry platform value first with
      | some next =>
        rw [member] at missing
        exact ih missing
      | none =>
        rw [member] at missing
        dsimp only at missing ⊢
        split at missing
        · cases missing
        · rename_i lax
          rw [if_neg (less laxer lax)]
          exact missing
    · rename_i notMap
      rw [if_neg notMap]
      split at missing
      · rename_i isArray
        rw [if_pos isArray]
        rcases item : indexed index first value with ⟨last, next⟩
        rw [item] at missing
        cases next with
        | some next => exact ih missing
        | none =>
          dsimp only at missing ⊢
          split at missing
          · cases missing
          · rename_i lax
            rw [if_neg (less laxer lax)]
            exact missing
      · rename_i notArray
        rw [if_neg notArray]
        split at missing
        · cases missing
        · rename_i lax
          rw [if_neg (less laxer' lax)]
          exact missing

theorem dataRest_laxer {parts : List Str} {value child : Value μ}
    (laxer : strict' = true → strict = true)
    (found : dataRest platform strict parts value = some child) :
    dataRest platform strict' parts value = some child := by
  induction parts generalizing value with
  | nil => exact found
  | cons part rest ih =>
    rw [dataRest] at found ⊢
    cases member : entry platform value part with
    | some next =>
      rw [member] at found
      exact ih found
    | none =>
      rw [member] at found
      dsimp only at found ⊢
      cases strict with
      | true => cases found
      | false =>
        have lax : strict' = false := by
          cases strict' with
          | true => cases laxer rfl
          | false => rfl
        rw [lax] at ih ⊢
        exact ih found

/-- A mode that differs from the first in being less strict about what is missing -/
structure Laxer (first second : Mode) : Prop where
  platform : second.platform = first.platform
  compat : second.flags.has Flag.compat = first.flags.has Flag.compat
  strict : second.flags.has Flag.strict = true → first.flags.has Flag.strict = true
  assumeObjects : second.flags.has Flag.assumeObjects = true →
    first.flags.has Flag.assumeObjects = true

variable {first second : Mode} {names : List BlockParamPair} {scope : Scope μ} {path : PathNode}

theorem Laxer.either (laxer : Laxer first second)
    (also : (second.flags.has Flag.strict || second.flags.has Flag.assumeObjects) = true) :
    (first.flags.has Flag.strict || first.flags.has Flag.assumeObjects) = true := by
  rw [Bool.or_eq_true] at also ⊢
  exact also.imp laxer.strict laxer.assumeObjects

theorem Laxer.terminal (laxer : Laxer first second) {required : Bool}
    (also : (second.flags.has Flag.strict && required) = true) :
    (first.flags.has Flag.strict && required) = true := by
  rw [Bool.and_eq_true] at also ⊢
  exact also.imp_left laxer.strict

/-- A test that fails where it is strict fails where it is not. -/
theorem not_of_laxer {firm lax : Bool} (laxer : lax = true → firm = true) (fails : ¬firm = true) :
    ¬lax = true :=
  fun also => fails (laxer also)

theorem Laxer.dataValue (laxer : Laxer first second) (start : Str) (rest : List Str) :
    Keeps (dataValue first scope path start rest) (dataValue second scope path start rest) := by
  intro value meant
  unfold Render.dataValue at meant ⊢
  dsimp only at meant ⊢
  have same : dataStart second scope (outerData second.platform path.depth scope.data) start =
      dataStart first scope (outerData first.platform path.depth scope.data) start := by
    unfold dataStart
    rw [laxer.platform]
  rw [same, laxer.platform]
  cases begun : dataStart first scope (outerData first.platform path.depth scope.data) start with
  | error failure =>
    rw [begun] at meant
    cases meant
  | ok found =>
    rw [begun] at meant
    cases found with
    | none =>
      dsimp only [bind, Except.bind] at meant ⊢
      split at meant
      · cases meant
      · rename_i lenient
        rw [if_neg (not_of_laxer ?_ lenient)]
        · exact meant
        · intro also
          rw [Bool.or_eq_true] at also ⊢
          exact also.imp laxer.assumeObjects laxer.terminal
    | some inner =>
      dsimp only [bind, Except.bind] at meant ⊢
      split at meant
      · rename_i child there
        rw [dataRest_laxer ?_ there]
        · dsimp only
          split at meant
          · cases meant
          · rename_i present
            rw [if_neg fun also => present (also.imp_right laxer.terminal)]
            exact meant
        · intro also
          rw [Bool.or_eq_true] at also ⊢
          exact also.imp laxer.either laxer.terminal
      · cases meant

theorem Laxer.contextValue (laxer : Laxer first second) (start : Str) :
    Keeps (contextValue first scope path start) (contextValue second scope path start) := by
  intro value meant
  have root : pathRoot second scope path start = pathRoot first scope path start := by
    unfold pathRoot
    rw [laxer.platform, laxer.compat]
  unfold Render.contextValue at meant ⊢
  dsimp only at meant ⊢
  rw [root, laxer.platform]
  split at meant
  · rename_i child found
    rw [walk_found found]
    exact meant
  · rename_i part missing
    rw [walk_missing laxer.either laxer.assumeObjects missing]
    dsimp only
    split at meant
    · cases meant
    · rename_i lenient
      rw [if_neg (not_of_laxer laxer.terminal lenient)]
      exact meant
  · cases meant

theorem Laxer.pathValue (laxer : Laxer first second) (names : List BlockParamPair) (scope : Scope μ)
    (path : PathNode) : Keeps (pathValue first names scope path) (pathValue second names scope path) := by
  unfold Render.pathValue
  rw [laxer.platform]
  split
  · unfold blockParamValue
    rw [laxer.platform]
    exact congruence_keeps.refl _
  · split
    · exact congruence_keeps.refl _
    · split
      · exact laxer.dataValue _ _
      · exact laxer.contextValue _

end Strictness

section Flags

variable {flags flags' more more' flag : Flags}

theorem has_or : (flags ||| more).has flag = (flags.has flag || more.has flag) := by
  have distributed : (flags ||| more) &&& flag = (flags &&& flag) ||| (more &&& flag) :=
    UInt64.toBitVec_inj.mp BitVec.and_or_distrib_right
  unfold Flags.has
  rw [distributed, Bool.eq_iff_iff]
  simp only [bne_iff_ne, Bool.or_eq_true, ne_eq, UInt64.or_eq_zero_iff]
  tauto

theorem has_all (known : Flag.all &&& flag = flag) : (flags &&& Flag.all).has flag = flags.has flag := by
  unfold Flags.has
  rw [UInt64.and_assoc, known]

/-- Options that compile parameters and mustaches alike -/
structure SameShape (flags flags' : Flags) : Prop where
  stringParams : flags'.has Flag.stringParams = flags.has Flag.stringParams
  trackIds : flags'.has Flag.trackIds = flags.has Flag.trackIds
  noEscape : flags'.has Flag.noEscape = flags.has Flag.noEscape

/-- Flags that differ from the first in being less strict about what is missing -/
structure LaxerFlags (flags flags' : Flags) : Prop where
  compat : flags'.has Flag.compat = flags.has Flag.compat
  strict : flags'.has Flag.strict = true → flags.has Flag.strict = true
  assumeObjects : flags'.has Flag.assumeObjects = true → flags.has Flag.assumeObjects = true

/-- Flags that are equally strict about what is missing -/
structure SameStrictness (flags flags' : Flags) : Prop where
  compat : flags'.has Flag.compat = flags.has Flag.compat
  strict : flags'.has Flag.strict = flags.has Flag.strict
  assumeObjects : flags'.has Flag.assumeObjects = flags.has Flag.assumeObjects

theorem modeOf_has (platform : Platform) (knownHelpers : List Str) (known : Flag.all &&& flag = flag) :
    (modeOf platform flags knownHelpers more).flags.has flag = (more.has flag || flags.has flag) := by
  unfold modeOf
  rw [has_or, has_all known]

theorem LaxerFlags.laxer (platform : Platform) (knownHelpers : List Str) (compiled : LaxerFlags flags flags')
    (running : LaxerFlags more more') :
    Laxer (modeOf platform flags knownHelpers more) (modeOf platform flags' knownHelpers more') where
  platform := rfl
  compat := by
    rw [modeOf_has _ _ (by decide), modeOf_has _ _ (by decide), compiled.compat, running.compat]
  strict also := by
    rw [modeOf_has _ _ (by decide), Bool.or_eq_true] at also ⊢
    exact also.imp running.strict compiled.strict
  assumeObjects also := by
    rw [modeOf_has _ _ (by decide), Bool.or_eq_true] at also ⊢
    exact also.imp running.assumeObjects compiled.assumeObjects

/-- What a path means depends on three flags. -/
theorem pathValue_same {first second : Mode} (strictness : SameStrictness first.flags second.flags)
    (platform : second.platform = first.platform) (names : List BlockParamPair)
    (scope : Scope μ) (path : PathNode) :
    pathValue first names scope path = pathValue second names scope path := by
  unfold pathValue dataValue contextValue dataStart pathRoot blockParamValue
  rw [platform, strictness.compat, strictness.strict, strictness.assumeObjects]

theorem SameStrictness.modes (platform : Platform) (knownHelpers : List Str)
    (compiled : SameStrictness flags flags') (running : SameStrictness more more') :
    SameStrictness (modeOf platform flags knownHelpers more).flags
      (modeOf platform flags' knownHelpers more').flags where
  compat := by
    rw [modeOf_has _ _ (by decide), modeOf_has _ _ (by decide), compiled.compat, running.compat]
  strict := by
    rw [modeOf_has _ _ (by decide), modeOf_has _ _ (by decide), compiled.strict, running.strict]
  assumeObjects := by
    rw [modeOf_has _ _ (by decide), modeOf_has _ _ (by decide), compiled.assumeObjects,
      running.assumeObjects]

theorem SameShape.alike (platform : Platform) (knownHelpers : List Str) (shape : SameShape flags flags')
    (paths : ∀ (names : List BlockParamPair) (scope : Scope μ) (path : PathNode),
      R (pathValue (modeOf platform flags knownHelpers more) names scope path)
        (pathValue (modeOf platform flags' knownHelpers more') names scope path)) :
    Alike μ R (modeOf platform flags knownHelpers more) (modeOf platform flags' knownHelpers more') where
  platform := rfl
  knownHelpers := rfl
  stringParams := by
    change (flags' &&& Flag.all).has _ = (flags &&& Flag.all).has _
    rw [has_all (by decide), has_all (by decide), shape.stringParams]
  trackIds := by
    change (flags' &&& Flag.all).has _ = (flags &&& Flag.all).has _
    rw [has_all (by decide), has_all (by decide), shape.trackIds]
  noEscape := by
    change (flags' &&& Flag.all).has _ = (flags &&& Flag.all).has _
    rw [has_all (by decide), has_all (by decide), shape.noEscape]
  paths := paths

end Flags

section Runs

variable {owned : Nat → Prop} {entries : StrMap (Value μ)} {context : Value μ}
  {machine machine' : Machine μ κ} {env : Env μ κ} {stored stored' : μ} {flags flags' : Flags}
  {knownHelpers : List Str} {node : ProgramNode} {fuel : Nat} {text : Str}

/-- A run that gives a text gives the one that is meant. -/
theorem Renders.returned {vmFlags : Flags} {result : Meaning Str} {after : Machine μ κ}
    (renders : Renders owned entries vmFlags result (.ok (some text) after)) : result = .ok text := by
  unfold Renders at renders
  split at renders
  · obtain ⟨_, same, -⟩ := renders
    cases same
    rfl
  · obtain ⟨_, same, -⟩ := renders
    cases same
  · obtain ⟨_, same⟩ := renders
    cases same

/-- Being strict about missing names only adds errors: where a strict run of a template gives a text,
a laxer run gives the same one. -/
theorem strict_only_fails (strictly : Template env stored flags knownHelpers node)
    (laxly : Template env stored' flags' knownHelpers node) (shape : SameShape flags flags')
    (compiled : LaxerFlags flags flags') (running : LaxerFlags machine.vm.flags machine'.vm.flags)
    (ready : Ready owned entries machine.vm) (ready' : Ready owned entries machine'.vm)
    (inert : context.Inert owned) (enough : nodeCalls node < fuel)
    (ran : (Exec.execute env (Exec.level env fuel) stored context machine).1 = .ok (some text) after) :
    ∃ after', (Exec.execute env (Exec.level env fuel) stored' context machine').1 =
      .ok (some text) after' := by
  have first := strictly.renders ready inert enough
  rw [ran] at first
  have laxer := compiled.laxer env.platform knownHelpers running
  have kept := render_related (shape.alike env.platform knownHelpers (laxer.pathValue (μ := μ)))
    congruence_keeps node context entries text first.returned
  have second := laxly.renders ready' inert enough
  rw [kept] at second
  obtain ⟨after', ended, -⟩ := second
  exact ⟨after', ended⟩

theorem greeting_means_strict : render (modeOf greetingEnv.platform Flag.strict [] 0) greeting
    greetingContext greetingData = .ok (bytes "Hi 0May&lt;b&gt; 1MayBo Al") := rfl

theorem strict_only_fails_greeting : ∃ module after,
    (Exec.execute greetingEnv (Exec.level greetingEnv 9) module greetingContext (idleMachine 0)).1 =
      .ok (some (bytes "Hi 0May&lt;b&gt; 1MayBo Al")) after := by
  obtain ⟨strict, strictly⟩ :=
    exists_template Flag.strict greeting greeting_completes_strict greeting_covered
  obtain ⟨module, laxly⟩ := exists_template 0 greeting greeting_completes greeting_covered
  obtain ⟨after, ran, -⟩ := greeting_runs strictly greeting_inert greeting_means_strict
  have compiled : LaxerFlags Flag.strict 0 := ⟨rfl, by decide, by decide⟩
  have running : LaxerFlags (idleMachine 0).vm.flags (idleMachine 0).vm.flags := ⟨rfl, id, id⟩
  obtain ⟨after, kept⟩ := strict_only_fails strictly laxly ⟨rfl, rfl, rfl⟩ compiled running
    (greeting_ready 0) (greeting_ready 0) greeting_inert greeting_calls ran
  exact ⟨module, after, kept⟩

/-- The other options of the compiler change nothing: both modules of a tree run to the same end. -/
theorem options_render_alike (first : Template env stored flags knownHelpers node)
    (second : Template env stored' flags' knownHelpers node) (shape : SameShape flags flags')
    (compiled : SameStrictness flags flags')
    (running : SameStrictness machine.vm.flags machine'.vm.flags)
    (ready : Ready owned entries machine.vm) (ready' : Ready owned entries machine'.vm)
    (inert : context.Inert owned) (enough : nodeCalls node < fuel) :
    ∃ result,
      Renders owned entries machine.vm.flags result
        (Exec.execute env (Exec.level env fuel) stored context machine).1 ∧
      Renders owned entries machine'.vm.flags result
        (Exec.execute env (Exec.level env fuel) stored' context machine').1 := by
  have paths := pathValue_same (μ := μ) (compiled.modes env.platform knownHelpers running) rfl
  have same := render_related (shape.alike env.platform knownHelpers paths) congruence_eq node context
    entries
  refine ⟨_, first.renders ready inert enough, ?_⟩
  rw [same]
  exact second.renders ready' inert enough

theorem options_render_alike_greeting : ∃ module module' result,
    Renders (· < 3) greetingData 0 result
      (Exec.execute greetingEnv (Exec.level greetingEnv 9) module greetingContext (idleMachine 0)).1 ∧
    Renders (· < 3) greetingData 0 result
      (Exec.execute greetingEnv (Exec.level greetingEnv 9) module' greetingContext (idleMachine 0)).1 := by
  obtain ⟨module, first⟩ := exists_template 0 greeting greeting_completes greeting_covered
  obtain ⟨module', second⟩ :=
    exists_template Flag.knownHelpersOnly greeting greeting_completes_known greeting_covered
  obtain ⟨result, renders⟩ := options_render_alike first second ⟨rfl, rfl, rfl⟩ ⟨rfl, rfl, rfl⟩
    ⟨rfl, rfl, rfl⟩ (greeting_ready 0) (greeting_ready 0) greeting_inert
    greeting_calls
  exact ⟨module, module', result, renders⟩

end Runs

end Render

end HandlebarsC
