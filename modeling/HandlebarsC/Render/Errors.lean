import HandlebarsC.Render.Modes

/-!
The errors that a template can end in: they are read off its syntax tree.
-/

namespace HandlebarsC

open Exec (notDefined)
open Results

namespace Render

variable {μ κ : Type}

/-- A failure with one of these errors, or the end of the process -/
def Blamed (errors : List Error) : Failure → Prop
  | .error error => error ∈ errors
  | .crash => True

/-- A result that can only fail so -/
abbrev Blames (errors : List Error) (result : Meaning α) : Prop := Fails (Blamed errors) result

theorem Blames.grow {errors more : List Error} {result : Meaning α} (blames : Blames errors result)
    (within : ∀ error ∈ errors, error ∈ more) : Blames more result := by
  refine blames.mono fun failure blamed => ?_
  cases failure with
  | error error => exact within error blamed
  | crash => trivial

theorem Blames.left {errors : List Error} {result : Meaning α} (blames : Blames errors result)
    (more : List Error) : Blames (errors ++ more) result :=
  blames.grow fun _ => List.mem_append_left more

theorem Blames.right {errors : List Error} {result : Meaning α} (blames : Blames errors result)
    (more : List Error) : Blames (more ++ errors) result :=
  blames.grow fun _ => List.mem_append_right more

theorem blames_error {errors : List Error} {error : Error} (blamed : error ∈ errors) :
    Blames errors (.error (.error error) : Meaning α) :=
  fails_error blamed

theorem blames_crash {errors : List Error} : Blames errors (.error .crash : Meaning α) :=
  fails_error trivial

/-- Bodies that can only fail so, in every scope -/
def BodyBlames (errors : List Error) (body : Body μ) : Prop := ∀ scope, Blames errors (body scope)

theorem blames_noBody (errors : List Error) : BodyBlames errors (noBody : Body μ) :=
  fun _ => fails_ok []

section Paths

variable {platform : Platform}

/-- What a walk does not find is one of its segments. -/
theorem walk_missing_mem {strict assume : Bool} {index : Int} {parts : List Str} {value : Value μ}
    {part : Str} (missing : walk platform strict assume index parts value = .missing part) :
    part ∈ parts := by
  induction parts generalizing index value with
  | nil => cases missing
  | cons first rest ih =>
    rw [walk] at missing
    split at missing
    · split at missing
      · exact .tail _ (ih missing)
      · split at missing
        · cases missing
        · cases missing
          exact .head _
    · split at missing
      · split at missing
        · exact .tail _ (ih missing)
        · split at missing
          · cases missing
          · cases missing
            exact .head _
      · split at missing
        · cases missing
        · cases missing
          exact .head _

/-- A walk gives up at one of its segments, where it is strict. -/
theorem walk_err_mem {strict assume : Bool} {index : Int} {parts : List Str} {value : Value μ}
    {part : Str} (stopped : walk platform strict assume index parts value = .err part) :
    part ∈ parts ∧ (strict || assume) = true := by
  induction parts generalizing index value with
  | nil => cases stopped
  | cons first rest ih =>
    rw [walk] at stopped
    split at stopped
    · split at stopped
      · exact (ih stopped).imp_left (.tail _)
      · split at stopped
        · cases stopped
          exact ⟨.head _, by simp_all⟩
        · cases stopped
    · split at stopped
      · split at stopped
        · exact (ih stopped).imp_left (.tail _)
        · split at stopped
          · cases stopped
            exact ⟨.head _, by simp_all⟩
          · cases stopped
      · split at stopped
        · cases stopped
          exact ⟨.head _, by simp_all⟩
        · cases stopped

/-- A data path that is not strict finds something. -/
theorem dataRest_lenient (parts : List Str) (value : Value μ) :
    dataRest platform false parts value ≠ none := by
  induction parts generalizing value with
  | nil => simp [dataRest]
  | cons part rest ih =>
    rw [dataRest]
    cases entry platform value part with
    | some found => exact ih found
    | none => exact ih value

/-- The errors of a lookup: what is not there is one of the segments, the first one of a data path.
Only two flags make a lookup fail, and what is inside a block parameter need not be there. -/
def pathErrors (mode : Mode) (names : List BlockParamPair) (path : PathNode) : List Error :=
  if (mode.flags.has Flag.strict || mode.flags.has Flag.assumeObjects) &&
      (Compiler.pathBlockParam mode.platform names path).isNone then
    (if path.data then path.parts.take 1 else path.parts).map (notDefined · path.loc)
  else []

variable {mode : Mode} {scope : Scope μ} {path : PathNode} {first : Str} {rest : List Str}

/-- In a mode where lookups fail, the errors of a lookup of these segments are among the errors. -/
def Undefined (mode : Mode) (path : PathNode) (parts : List Str) (errors : List Error) : Prop :=
  (mode.flags.has Flag.strict || mode.flags.has Flag.assumeObjects) = true →
    ∀ part ∈ parts, notDefined part path.loc ∈ errors

variable {errors : List Error}

theorem contextValue_blames (undefined : Undefined mode path path.parts errors) :
    Blames errors (contextValue mode scope path first) := by
  unfold contextValue
  dsimp only
  split
  · exact fails_ok _
  · rename_i part missing
    split
    · rename_i required
      exact blames_error (undefined (by simp_all) part (walk_missing_mem missing))
    · exact fails_ok _
  · rename_i part stopped
    obtain ⟨member, either⟩ := walk_err_mem stopped
    exact blames_error (undefined (by simpa using either) part member)

theorem dataStart_blames (data : StrMap (Value μ)) :
    Blames errors (dataStart mode scope data first) := by
  unfold dataStart
  split
  · exact fails_ok _
  · split
    · exact fails_ok _
    · split
      · exact blames_crash
      · exact fails_ok _

theorem dataValue_blames (undefined : Undefined mode path [first] errors) :
    Blames errors (dataValue mode scope path first rest) := by
  have blames (fails : (mode.flags.has Flag.strict || mode.flags.has Flag.assumeObjects) = true) :
      Blames errors (undefinedName first path.loc : Meaning (Value μ)) :=
    blames_error (undefined fails first (.head _))
  unfold dataValue
  dsimp only
  refine (dataStart_blames _).bind fun found _ => ?_
  cases found with
  | none =>
    dsimp only
    split
    · rename_i required
      refine blames ?_
      rw [Bool.or_eq_true] at required ⊢
      exact required.symm.imp_left fun terminal => (Bool.and_eq_true_iff.mp terminal).1
    · exact fails_ok _
  | some value =>
    dsimp only
    split
    · split
      · rename_i required
        refine blames ?_
        rw [(Bool.and_eq_true_iff.mp required.2).1, Bool.true_or]
      · exact fails_ok _
    · rename_i absent
      cases fails : mode.flags.has Flag.strict || mode.flags.has Flag.assumeObjects with
      | true => exact blames fails
      | false =>
        have lenient : mode.flags.has Flag.strict = false := (Bool.or_eq_false_iff.mp fails).1
        rw [fails, lenient, Bool.false_and, Bool.or_false] at absent
        exact absurd absent (dataRest_lenient rest value)

theorem pathValue_blames (names : List BlockParamPair) :
    Blames (pathErrors mode names path) (pathValue mode names scope path) := by
  unfold pathErrors pathValue
  cases Compiler.pathBlockParam mode.platform names path with
  | some found => exact fails_ok _
  | none =>
    rw [Option.isNone_none, Bool.and_true]
    dsimp only
    cases parts : path.parts with
    | nil => exact fails_ok _
    | cons first rest =>
      dsimp only
      by_cases isData : path.data = true
      · rw [if_pos isData, if_pos isData]
        refine dataValue_blames fun fails part member => ?_
        rw [if_pos fails, List.mem_singleton.mp member]
        exact .head _
      · rw [if_neg isData, if_neg isData]
        refine contextValue_blames fun fails part member => ?_
        rw [if_pos fails]
        exact List.mem_map_of_mem (parts ▸ member)

end Paths

section Builtins

/-- The error of a helper that fails -/
def plainError (msg : Str) : Error := ⟨.error, msg, LocInfo.zero⟩

/-- The errors of a built-in helper that is called under this name with so many parameters -/
def builtinErrors (name : Option Str) (count : Nat) : Builtin → List Error
  | .helperMissing =>
    if count = 0 then []
    else name.toList.map fun name => plainError (bytes "Missing helper: \"" ++ name ++ bytes "\"")
  | .each => if count = 0 then [plainError (bytes "Must pass iterator to #each")] else []
  | .ifHelper => if count = 1 then [] else [plainError (bytes "#if requires exactly one argument")]
  | .unless =>
    if count = 1 then [] else [plainError (bytes "#unless requires exactly one argument")]
  | .with => if count = 1 then [] else [plainError (bytes "#with requires exactly one argument")]
  | .lookup => if count < 2 then [plainError (bytes "lookup requires two parameters")] else []
  | .blockHelperMissing | .log | .setDelimiters => []

variable {mode : Mode} {scope : Scope μ} {call : Invocation μ} {errors : List Error}

theorem eachText_blames (programs : BodyBlames errors call.program) (last index : Nat)
    (data : StrMap (Value μ)) (items : List (Option Str × Value μ)) :
    Blames errors (eachText mode scope call last index data items) := by
  induction items generalizing index data with
  | nil => exact fails_ok _
  | cons item rest ih =>
    obtain ⟨key, value⟩ := item
    rw [eachText]
    exact (programs _).bind fun text _ => (ih (index + 1) _).map _

theorem eachBlock_blames (programs : BodyBlames errors call.program)
    (inverses : BodyBlames errors call.inverse) (context : Value μ) :
    Blames errors (eachBlock mode scope call context) := by
  unfold eachBlock
  cases Exec.elements context with
  | nil => exact inverses _
  | cons first rest =>
    refine Fails.bind ?_ fun inner _ => eachText_blames programs _ _ _ _
    unfold Scope.iterate
    split
    · split
      · exact blames_crash
      · exact fails_ok _
    · exact fails_ok _

theorem ifBlock_blames (programs : BodyBlames errors call.program)
    (inverses : BodyBlames errors call.inverse) (argument : Value μ) :
    Blames errors (ifBlock mode scope call argument) := by
  unfold ifBlock
  split
  · exact programs _
  · exact inverses _

theorem withBlock_blames (programs : BodyBlames errors call.program)
    (inverses : BodyBlames errors call.inverse) (argument : Value μ) :
    Blames errors (withBlock mode scope call argument) := by
  unfold withBlock
  split
  · exact inverses _
  · exact programs _

theorem valueBlock_blames (programs : BodyBlames errors call.program)
    (inverses : BodyBlames errors call.inverse) (value : Value μ) :
    Blames errors (valueBlock mode scope call value) := by
  unfold valueBlock
  split
  · exact programs _
  · split
    · exact inverses _
    · split
      · exact eachBlock_blames programs inverses value
      · exact programs _

theorem textValue_blames {text : Meaning Str} (blames : Blames errors text) :
    Blames errors (textValue text : Meaning (Value μ)) :=
  blames.map _

/-- A built-in helper fails with its blocks or with an error of its own. -/
theorem callBuiltin_blames (programs : BodyBlames errors call.program)
    (inverses : BodyBlames errors call.inverse) (builtin : Builtin) :
    Blames (builtinErrors call.name call.args.length builtin ++ errors)
      (callBuiltin mode scope call builtin) := by
  have own {msg : Str} (member : plainError msg ∈ builtinErrors call.name call.args.length builtin) :
      Blames (builtinErrors call.name call.args.length builtin ++ errors)
        (fail msg : Meaning (Value μ)) :=
    blames_error (List.mem_append_left errors member)
  have inner {text : Meaning Str} (blames : Blames errors text) :
      Blames (builtinErrors call.name call.args.length builtin ++ errors)
        (textValue text : Meaning (Value μ)) :=
    (textValue_blames blames).right _
  unfold callBuiltin
  split
  · exact inner (inverses _)
  · exact inner (valueBlock_blames programs inverses _)
  · exact fails_ok _
  · rename_i given
    split
    · rename_i name named
      exact own (by simp [builtinErrors, given, named])
    · exact blames_crash
  · rename_i given
    exact own (by simp [builtinErrors, given])
  · exact inner (eachBlock_blames programs inverses _)
  · exact inner (ifBlock_blames programs inverses _)
  · rename_i other
    exact own (by simpa [builtinErrors, List.length_eq_one_iff] using other)
  · exact inner (ifBlock_blames programs inverses _)
  · rename_i other
    exact own (by simpa [builtinErrors, List.length_eq_one_iff] using other)
  · exact inner (withBlock_blames programs inverses _)
  · rename_i other
    exact own (by simpa [builtinErrors, List.length_eq_one_iff] using other)
  · split
    · exact fails_ok _
    · exact blames_crash
  · unfold lookupValue
    split
    · exact fails_ok _
    · split
      · split
        · exact fails_ok _
        · exact blames_crash
      · exact fails_ok _
  · rename_i other
    refine own ?_
    rcases given : call.args with _ | ⟨first, _ | ⟨second, rest⟩⟩
    · simp [builtinErrors]
    · simp [builtinErrors]
    · exact absurd given (other first second rest)
  · exact fails_ok _

end Builtins

section Expressions

variable (mode : Mode) (names : List BlockParamPair) (loc : LocInfo) (path : PathNode)

def nameErrors : HelperName → List Error
  | .path path => pathErrors mode names path
  | .literal .. => []

/-- The error of an opcode that the VM does not know -/
def unhandledError (type : OpcodeType) : Error :=
  plainError (bytes "Unhandled opcode: " ++ opcodeReadableType type ++ [10])

/-- The errors of a parameter: those of its value, unless an option replaces it. -/
def argumentErrors (errors : List Error) : List Error :=
  if mode.compileFlags.has Flag.stringParams then [unhandledError .pushStringParam]
  else if mode.compileFlags.has Flag.trackIds then [unhandledError .pushId]
  else errors

/-- The errors of a helper that is called with so many parameters -/
def helperErrors (count : Nat) : List Error :=
  let name := path.idPart.getD []
  if (mode.compiler names).isKnownHelper path then
    match builtinsFind name with
    | some builtin => builtinErrors (some name) count builtin
    | none => [⟨.error, bytes "Invalid known helper: " ++ name, loc⟩]
  else
    pathErrors mode names { path with falsy := true, strict := true } ++
      builtinErrors path.original count (namedBuiltin path)

/-- The errors of an expression with so many parameters that have these errors -/
def expressionErrors (count : Nat) (args : List Error) (isHelperExpression : Bool) : List Error :=
  match kind mode names path isHelperExpression with
  | .helper => args ++ helperErrors mode names loc path count
  | _ => pathErrors mode names { path with strict := true }

end Expressions

mutual

def paramErrors (mode : Mode) (names : List BlockParamPair) : Param → List Error
  | .name name => nameErrors mode names name
  | .sexpr loc path params hash =>
    expressionErrors mode names loc path.toPath params.length
      (paramsErrors mode names params ++ hashErrors mode names hash) true

def paramsErrors (mode : Mode) (names : List BlockParamPair) : List Param → List Error
  | [] => []
  | param :: rest =>
    argumentErrors mode (paramErrors mode names param) ++ paramsErrors mode names rest

def hashErrors (mode : Mode) (names : List BlockParamPair) : Option HashNode → List Error
  | none => []
  | some hash => hashNodeErrors mode names hash

def hashNodeErrors (mode : Mode) (names : List BlockParamPair) : HashNode → List Error
  | .mk _ pairs => pairsErrors mode names pairs

def pairsErrors (mode : Mode) (names : List BlockParamPair) : List HashPair → List Error
  | [] => []
  | .mk _ value :: rest =>
    argumentErrors mode (paramErrors mode names value) ++ pairsErrors mode names rest

end

mutual

/-- The errors that a statement can end in -/
def statementErrors (mode : Mode) (names : List BlockParamPair) : Statement → List Error
  | .block loc path params hash program inverse _ | .rawBlock loc path params hash program inverse =>
    expressionErrors mode names loc path.toPath params.length
        (paramsErrors mode names params ++ hashErrors mode names hash)
        (Compiler.hasArguments params hash) ++
      (nodeOptionErrors mode names program ++ nodeOptionErrors mode names inverse)
  | .mustache loc path params hash _ _ =>
    expressionErrors mode names loc path.toPath params.length
      (paramsErrors mode names params ++ hashErrors mode names hash)
      (Compiler.hasArguments params hash)
  | .content .. | .comment .. | .partialCall .. | .partialBlock .. => []

def statementsErrors (mode : Mode) (names : List BlockParamPair) : List Statement → List Error
  | [] => []
  | statement :: rest => statementErrors mode names statement ++ statementsErrors mode names rest

def nodeErrors (mode : Mode) (names : List BlockParamPair) : ProgramNode → List Error
  | .mk _ _ statements blockParam1 blockParam2 =>
    statementsErrors mode (⟨blockParam1, blockParam2⟩ :: names) statements

def nodeOptionErrors (mode : Mode) (names : List BlockParamPair) : Option ProgramNode → List Error
  | none => []
  | some node => nodeErrors mode names node

end

section Calls

variable {mode : Mode} {names : List BlockParamPair} {scope : Scope μ} {loc : LocInfo}
  {path : PathNode} {program inverse : Body μ} {errors : List Error}

theorem nameValue_blames (name : HelperName) :
    Blames (nameErrors mode names name) (nameValue mode names scope name) := by
  cases name with
  | path path => exact pathValue_blames names
  | literal type loc value => exact fails_ok _

theorem argument_blames {value : Meaning (Value μ)} (blames : Blames errors value) :
    Blames (argumentErrors mode errors) (argument mode value) := by
  unfold argumentErrors argument
  split
  · exact blames_error (.head _)
  · split
    · exact blames_error (.head _)
    · exact blames

/-- The call of a built-in helper with these blocks -/
theorem BodyBlames.call (programs : BodyBlames errors program) (inverses : BodyBlames errors inverse)
    (name : Option Str) (args : List (Value μ)) (hash : StrMap (Value μ)) (builtin : Builtin) :
    Blames (builtinErrors name args.length builtin ++ errors)
      (callBuiltin mode scope ⟨name, args, hash, program, inverse⟩ builtin) := by
  let call : Invocation μ := ⟨name, args, hash, program, inverse⟩
  have programs : BodyBlames errors call.program := programs
  exact callBuiltin_blames programs inverses builtin

theorem helperValue_blames (programs : BodyBlames errors program) (inverses : BodyBlames errors inverse)
    (args : List (Value μ)) (hash : StrMap (Value μ)) :
    Blames (helperErrors mode names loc path args.length ++ errors)
      (helperValue mode names scope loc path args hash program inverse) := by
  unfold helperErrors helperValue
  dsimp only
  split
  · cases builtinsFind (path.idPart.getD []) with
    | some builtin =>
      exact BodyBlames.call programs inverses (path.idPart.getD []) args hash builtin
    | none => exact (blames_error (.head _)).left errors
  · rw [List.append_assoc]
    refine ((pathValue_blames names).left _).bind fun _ _ => Blames.right ?_ _
    exact BodyBlames.call programs inverses path.original args hash _

/-- The parameters of an expression, as many as the call is predicted to have -/
structure ArgsBlame (count : Nat) (errors : List Error) (args : Meaning (List (Value μ)))
    (hash : Meaning (StrMap (Value μ))) : Prop where
  params : Blames errors args
  pairs : Blames errors hash
  counted : ∀ values, args = .ok values → values.length = count

variable {args : Meaning (List (Value μ))} {hash : Meaning (StrMap (Value μ))} {count : Nat}
  {given : List Error} {isHelperExpression : Bool}

theorem callHelper_blames (blame : ArgsBlame count given args hash)
    (programs : BodyBlames errors program) (inverses : BodyBlames errors inverse) :
    Blames (given ++ helperErrors mode names loc path count ++ errors)
      (callHelper mode names scope loc path args hash program inverse) := by
  rw [List.append_assoc]
  refine (blame.params.left _).bind fun values same => (blame.pairs.left _).bind fun entries _ => ?_
  rw [← blame.counted values same]
  exact (helperValue_blames programs inverses values entries).right _

theorem expression_blames (blame : ArgsBlame count given args hash) :
    Blames (expressionErrors mode names loc path count given isHelperExpression)
      (expression mode names scope loc path args hash isHelperExpression) := by
  unfold expressionErrors expression
  cases kind mode names path isHelperExpression with
  | helper =>
    simpa using callHelper_blames blame (blames_noBody []) (blames_noBody [])
  | simple | ambig => exact pathValue_blames names

theorem blockText_blames (blame : ArgsBlame count given args hash)
    (programs : BodyBlames errors program) (inverses : BodyBlames errors inverse) :
    Blames (expressionErrors mode names loc path count given isHelperExpression ++ errors)
      (blockText mode names scope loc path args hash isHelperExpression program inverse) := by
  by_cases helper : kind mode names path isHelperExpression = .helper
  · unfold expressionErrors blockText
    rw [helper]
    exact (callHelper_blames blame programs inverses).map _
  · have same : expressionErrors mode names loc path count given isHelperExpression =
        pathErrors mode names { path with strict := true } := by
      unfold expressionErrors
      split
      · exact absurd ‹_› helper
      · rfl
    rw [blockText_value helper, same]
    refine ((pathValue_blames names).left _).bind fun value _ => Blames.right ?_ _
    exact (textValue_blames (valueBlock_blames programs inverses value)).map _

end Calls

section Templates

variable {mode : Mode}

mutual

theorem paramValue_blames (names : List BlockParamPair) (scope : Scope μ) (param : Param) :
    Blames (paramErrors mode names param) (paramValue mode names scope param) := by
  cases param with
  | name name =>
    rw [paramErrors, paramValue]
    exact nameValue_blames name
  | sexpr loc path params hash =>
    rw [paramErrors, paramValue]
    exact expression_blames ⟨(paramValues_blames names scope params).left _,
      (hashValues_blames names scope hash).right _, fun _ => paramValues_length⟩

theorem paramValues_blames (names : List BlockParamPair) (scope : Scope μ) (params : List Param) :
    Blames (paramsErrors mode names params) (paramValues mode names scope params) := by
  cases params with
  | nil => exact fails_ok _
  | cons param rest =>
    rw [paramsErrors, paramValues]
    refine ((argument_blames (paramValue_blames names scope param)).left _).bind fun value _ => ?_
    exact ((paramValues_blames names scope rest).right _).map _

theorem hashValues_blames (names : List BlockParamPair) (scope : Scope μ) (hash : Option HashNode) :
    Blames (hashErrors mode names hash) (hashValues mode names scope hash) := by
  cases hash with
  | none => exact fails_ok _
  | some hash =>
    rw [hashErrors, hashValues]
    exact (hashPairs_blames names scope hash).map _

theorem hashPairs_blames (names : List BlockParamPair) (scope : Scope μ) (hash : HashNode) :
    Blames (hashNodeErrors mode names hash) (hashPairs mode names scope hash) := by
  obtain ⟨loc, pairs⟩ := hash
  rw [hashNodeErrors, hashPairs]
  exact pairValues_blames names scope pairs

theorem pairValues_blames (names : List BlockParamPair) (scope : Scope μ) (pairs : List HashPair) :
    Blames (pairsErrors mode names pairs) (pairValues mode names scope pairs) := by
  cases pairs with
  | nil => exact fails_ok _
  | cons pair rest =>
    obtain ⟨key, param⟩ := pair
    rw [pairsErrors, pairValues]
    refine ((argument_blames (paramValue_blames names scope param)).left _).bind fun value _ => ?_
    exact ((pairValues_blames names scope rest).right _).map _

end

mutual

theorem statementText_blames (names : List BlockParamPair) (statement : Statement) :
    BodyBlames (statementErrors mode names statement)
      (statementText mode names statement : Body μ) := by
  intro scope
  cases statement with
  | block loc path params hash program inverse isDecorator =>
    simp only [statementErrors, statementText]
    refine blockText_blames ⟨(paramValues_blames names scope params).left _,
      (hashValues_blames names scope hash).right _, fun _ => paramValues_length⟩ ?_ ?_
    · exact fun scope => (nodeOptionText_blames names program scope).left _
    · exact fun scope => (nodeOptionText_blames names inverse scope).right _
  | rawBlock loc path params hash program inverse =>
    simp only [statementErrors, statementText]
    refine blockText_blames ⟨(paramValues_blames names scope params).left _,
      (hashValues_blames names scope hash).right _, fun _ => paramValues_length⟩ ?_ ?_
    · exact fun scope => (nodeOptionText_blames names program scope).left _
    · exact fun scope => (nodeOptionText_blames names inverse scope).right _
  | mustache loc path params hash unescaped isDecorator =>
    simp only [statementErrors, statementText]
    exact (expression_blames ⟨(paramValues_blames names scope params).left _,
      (hashValues_blames names scope hash).right _, fun _ => paramValues_length⟩).map _
  | content loc value =>
    simp only [statementText]
    exact fails_ok _
  | comment =>
    simp only [statementText]
    exact blames_noBody _ scope
  | partialCall | partialBlock =>
    simp only [statementText]
    exact blames_crash

theorem statementsText_blames (names : List BlockParamPair) (statements : List Statement) :
    BodyBlames (statementsErrors mode names statements)
      (statementsText mode names statements : Body μ) := by
  intro scope
  cases statements with
  | nil => exact blames_noBody _ scope
  | cons statement rest =>
    simp only [statementsErrors, statementsText]
    refine ((statementText_blames names statement scope).left _).bind fun text _ => ?_
    exact ((statementsText_blames names rest scope).right _).map _

theorem nodeText_blames (names : List BlockParamPair) (node : ProgramNode) :
    BodyBlames (nodeErrors mode names node) (nodeText mode names node : Body μ) := by
  obtain ⟨loc, printed, statements, blockParam1, blockParam2⟩ := node
  rw [nodeErrors, nodeText]
  exact statementsText_blames _ statements

theorem nodeOptionText_blames (names : List BlockParamPair) (node : Option ProgramNode) :
    BodyBlames (nodeOptionErrors mode names node) (nodeOptionText mode names node : Body μ) := by
  cases node with
  | none => exact blames_noBody _
  | some node => exact nodeText_blames names node

end

variable {owned : Nat → Prop} {entries : StrMap (Value μ)} {context : Value μ}
  {machine after : Machine μ κ} {env : Env μ κ} {stored : μ} {flags : Flags}
  {knownHelpers : List Str} {node : ProgramNode} {fuel : Nat}

end Templates

end Render

end HandlebarsC
