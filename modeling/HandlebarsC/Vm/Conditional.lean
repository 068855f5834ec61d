import HandlebarsC.Vm.Each

/-!
`#if` and `#unless`: which of its two programs a conditional block runs.
-/

namespace HandlebarsC

open Effect

namespace Value

variable {μ : Type}

/-- The number 0, as an integer or as a floating point number. -/
def isNumberZero : Value μ → Bool
  | integer lval => lval == 0
  | float dval => dval.isZero
  | _ => false

end Value

/-- The first program of a block, or its inverse. -/
def Options.branch (options : Options μ) (main : Bool) : Int :=
  if main then options.program else options.inverse

namespace Exec

variable {μ κ : Type} {env : Env μ κ} {call : Value μ → List (Value μ) → Options μ → Exec μ κ (Value μ)}
  {argument scope : Value μ} {options : Options μ} {machine : Machine μ κ}
  {entries : List (Str × Value μ)}

/-- One call further out. -/
def outer (env : Env μ κ) (rec : Rec μ κ) : Rec μ κ :=
  { executeProgramEx := executeProgramEx env rec
    valueCall := valueCall env rec }

/-- `{{#if argument}}`, from inside the VM. -/
def ifBlock (env : Env μ κ) (argument : Value μ) (options : Options μ) (rec : Rec μ κ) :
    Exec μ κ (Value μ) :=
  (outer env rec).valueCall (.helper (.builtin .ifHelper)) [argument] options

/-- `{{#unless argument}}`, which calls `if` one call further in. -/
def unlessBlock (env : Env μ κ) (argument : Value μ) (options : Options μ) (rec : Rec μ κ) :
    Exec μ κ (Value μ) :=
  (outer env (outer env rec)).valueCall (.helper (.builtin .unless)) [argument] options

/-- Runs a program and returns its text. -/
def programText (rec : Rec μ κ) (program : Int) (scope : Value μ) : Exec μ κ (Value μ) := do
  let text ← executeProgram rec program scope
  pure (.string text false)

/-- Whatever it is to execute a program, the block executes this one with the scope, after some
events, and returns the text. -/
def Runs (call : Value μ → List (Value μ) → Options μ → Exec μ κ (Value μ))
    (block : Rec μ κ → Exec μ κ (Value μ)) (program : Int) (scope : Value μ)
    (machine : Machine μ κ) : Prop :=
  ∃ before log, ∀ execute,
    block ⟨execute, call⟩ machine = Proc.logged log (programText ⟨execute, call⟩ program scope before)

/-- Executing throws for one program and runs out for every other one. -/
def throwFor (wanted program : Int) (_ : Value μ) (_ _ : Option (Value μ)) : Exec μ κ Str :=
  if program = wanted then Proc.throw else Proc.exhaust

theorem throwFor_self (wanted : Int) (before : Machine μ κ) :
    programText ⟨throwFor wanted, call⟩ wanted scope before = (.thrown before, []) := by
  unfold programText executeProgram
  dsimp only [throwFor]
  rw [if_pos rfl]
  rfl

theorem throwFor_other {wanted program : Int} (different : program ≠ wanted)
    (before : Machine μ κ) :
    programText ⟨throwFor wanted, call⟩ program scope before = (.exhausted before, []) := by
  unfold programText executeProgram
  dsimp only [throwFor]
  rw [if_neg different]
  rfl

/-- A block runs no more than one program. -/
theorem Runs.unique {block : Rec μ κ → Exec μ κ (Value μ)} {first second : Int}
    (runs : Runs call block first scope machine) (also : Runs call block second scope machine) :
    first = second := by
  obtain ⟨before, log, ran⟩ := runs
  obtain ⟨between, later, ranToo⟩ := also
  by_contra different
  have thrown := ran (throwFor first)
  rw [ranToo (throwFor first), throwFor_self, throwFor_other (Ne.symm different)] at thrown
  cases congrArg Prod.fst thrown

/-- A block that does the same whatever it is to execute a program runs none. -/
theorem not_runs {block : Rec μ κ → Exec μ κ (Value μ)} {program : Int}
    (constant : ∀ execute other, block ⟨execute, call⟩ machine = block ⟨other, call⟩ machine) :
    ¬Runs call block program scope machine := by
  rintro ⟨before, log, ran⟩
  have same := constant (throwFor program) (throwFor (program + 1))
  rw [ran, ran, throwFor_self, throwFor_other (by omega)] at same
  cases congrArg Prod.fst same

/-- What a conditional is tested for: the argument, or what it returns when it is called. -/
def tested (call : Value μ → List (Value μ) → Options μ → Exec μ κ (Value μ))
    (argument : Value μ) (options : Options μ) : Exec μ κ (Value μ) :=
  if argument.isCallable then call argument [options.scope] options else pure argument

theorem tested_same {value : Value μ} {after : Machine μ κ} {log : List (Event μ κ)}
    (ran : tested call argument options machine = (.ok value after, log))
    (notCallable : argument.isCallable = false) : value = argument := by
  unfold tested at ran
  rw [notCallable, if_neg Bool.false_ne_true] at ran
  cases ran
  rfl

/-- A function is false. -/
theorem boolval_of_callable (callable : argument.isCallable = true) : argument.boolval = false := by
  cases argument with
  | helper fn | closure addr fn localv => rfl
  | _ => cases callable

/-- `includeZero` in the hash of a block. -/
def includeZero (platform : Platform) (entries : List (Str × Value μ)) : Option (Value μ) :=
  StrMap.find platform.hash entries (bytes "includeZero")

/-- What `#if` is to decide. -/
def holds (platform : Platform) (entries : List (Str × Value μ)) (value : Value μ) : Bool :=
  value.boolval || (value.isNumberZero && (includeZero platform entries).any Value.boolval)

/-- What `#if` decides. -/
def chosen (platform : Platform) (entries : List (Str × Value μ)) (value : Value μ) : Bool :=
  value.boolval ||
    (value.type = .integer && value.intval = 0 && (includeZero platform entries).isSome)

theorem isTrue_eq {addr : Nat} (hash : options.hash = some (.map addr entries))
    (value : Value μ) :
    isTrue (κ := κ) env value options = pure (chosen env.platform entries value) := by
  unfold isTrue chosen includeZero Value.isEmpty
  rw [hash]
  cases truth : value.boolval with
  | true => rfl
  | false =>
    simp only [Bool.not_false, not_true_eq_false, if_false, Bool.false_or]
    by_cases zero : value.type = .integer ∧ value.intval = 0
    · rw [if_pos zero]
      simp only [zero.1, zero.2, decide_true, Bool.true_and]
      rfl
    · rw [if_neg zero]
      by_cases integer : value.type = .integer
      · have other : ¬value.intval = 0 := fun same => zero ⟨integer, same⟩
        simp only [other, decide_false, Bool.and_false, Bool.false_and]
      · simp only [integer, decide_false, Bool.false_and]

theorem ifBlock_eq {addr : Nat} (hash : options.hash = some (.map addr entries))
    (execute : Int → Value μ → Option (Value μ) → Option (Value μ) → Exec μ κ Str) :
    ifBlock env argument options ⟨execute, call⟩ = (do
      let value ← tested call argument options
      programText ⟨execute, call⟩ (options.branch (chosen env.platform entries value))
        options.scope) := by
  change builtinIf env ⟨execute, call⟩ [argument] options = _
  unfold builtinIf
  dsimp only
  refine bind_congr fun value => ?_
  rw [isTrue_eq hash, pure_bind]
  rfl

variable (env) in
/-- `#if` runs the program that it chooses for the value it tests. -/
theorem ifBlock_runs {addr : Nat} (hash : options.hash = some (.map addr entries))
    {value : Value μ} {after : Machine μ κ} {log : List (Event μ κ)}
    (ran : tested call argument options machine = (.ok value after, log)) :
    Runs call (ifBlock env argument options)
      (options.branch (chosen env.platform entries value)) options.scope machine :=
  ⟨after, log, fun execute => by rw [ifBlock_eq hash, Proc.bind_logged ran]⟩

/-- `#if` runs nothing else, and nothing at all where the argument does not return. -/
theorem ifBlock_runs_iff {addr : Nat} (hash : options.hash = some (.map addr entries))
    (program : Int) : Runs call (ifBlock env argument options) program options.scope machine ↔
      ∃ value after log, tested call argument options machine = (.ok value after, log) ∧
        options.branch (chosen env.platform entries value) = program := by
  constructor
  · intro runs
    by_cases returned : ∃ value after log,
        tested call argument options machine = (.ok value after, log)
    · obtain ⟨value, after, log, ran⟩ := returned
      exact ⟨value, after, log, ran, (ifBlock_runs env hash ran).unique runs⟩
    · refine absurd runs (not_runs ?_)
      intro execute other
      rw [ifBlock_eq hash, ifBlock_eq hash]
      refine Proc.bind_ended ?_ _ _
      intro value after log ran
      exact returned ⟨value, after, log, ran⟩
  · rintro ⟨value, after, log, ran, rfl⟩
    exact ifBlock_runs env hash ran

variable (call argument) in
/-- `#unless` goes by the argument itself, and for its negation `includeZero` is nothing. -/
theorem unlessBlock_runs {addr : Nat} (hash : options.hash = some (.map addr entries))
    (builtin : lookupHelper env (bytes "if") machine =
      (.ok (some (.helper (.builtin .ifHelper))) machine, [])) :
    Runs call (unlessBlock env argument options) (options.branch argument.isEmpty) options.scope
      machine := by
  refine ⟨machine, [], fun execute => ?_⟩
  change (callHelperStr env _ (bytes "if") [.boolean argument.isEmpty] options >>= nonnull) machine = _
  unfold callHelperStr
  rw [bind_assoc, Proc.bind_ran builtin]
  simp only [bind_assoc, pure_bind]
  change (ifBlock env (.boolean argument.isEmpty) options ⟨execute, call⟩ >>= fun result =>
    pure result) machine = _
  rw [bind_pure, ifBlock_eq hash]
  cases argument.isEmpty <;> rfl

/-- What the two conditional blocks owe: `#if` runs its first program where the value it tests
is true or is the number 0 under an `includeZero` that is true, and else its inverse, and
`#unless` runs its first program where `#if` runs its inverse. -/
structure Opposite (env : Env μ κ)
    (call : Value μ → List (Value μ) → Options μ → Exec μ κ (Value μ)) (argument : Value μ)
    (options : Options μ) (entries : List (Str × Value μ)) (machine : Machine μ κ) : Prop where
  ifRuns : ∀ value after log, tested call argument options machine = (.ok value after, log) →
    Runs call (ifBlock env argument options)
      (options.branch (holds env.platform entries value)) options.scope machine
  unlessRuns : Runs call (unlessBlock env argument options) options.program options.scope machine ↔
    Runs call (ifBlock env argument options) options.inverse options.scope machine

/-- No 0 meets an `includeZero`, but for a floating point 0 one that is false, and what a
function returns is false. -/
structure Plain (platform : Platform) (entries : List (Str × Value μ)) (argument value : Value μ) :
    Prop where
  integer : value = .integer 0 → includeZero platform entries = none
  float : ∀ dval, value = .float dval → dval.isZero = true →
    (includeZero platform entries).any Value.boolval = false
  called : argument.isCallable = true → value.boolval = false

theorem chosen_false {platform : Platform} {value : Value μ} :
    chosen platform entries value = false ↔
      value.boolval = false ∧ (value = .integer 0 → includeZero platform entries = none) := by
  unfold chosen
  cases value with
  | integer lval =>
    by_cases zero : lval = 0
    · simp [Value.boolval, Value.type, Value.realType, Value.intval, zero]
    · simp [Value.boolval, zero]
  | user addr json =>
    cases json <;> simp [Value.boolval, Value.type, Json.type]
  | boolean bval =>
    cases bval <;> simp [Value.boolval, Value.type, Value.realType]
  | _ => simp [Value.type, Value.realType]

theorem holds_false {platform : Platform} {value : Value μ} :
    holds platform entries value = false ↔ value.boolval = false ∧
      (value.isNumberZero = true → (includeZero platform entries).any Value.boolval = false) := by
  unfold holds
  cases value.isNumberZero <;> simp

/-- The two decisions of `#if`, and that of `#unless`, agree just under `Plain`. -/
theorem plain_iff {platform : Platform} {value : Value μ}
    (same : argument.isCallable = false → value = argument) :
    Plain platform entries argument value ↔
      holds platform entries value = chosen platform entries value ∧
        argument.boolval = chosen platform entries value := by
  constructor
  · rintro ⟨integer, float, called⟩
    have falls : value.boolval = false → chosen platform entries value = false :=
      fun falsy => chosen_false.mpr ⟨falsy, integer⟩
    constructor
    · cases truth : value.boolval with
      | true => simp [holds, chosen, truth]
      | false =>
        rw [falls truth]
        refine holds_false.mpr ⟨truth, fun zero => ?_⟩
        cases value with
        | integer lval =>
          have unbound := integer (congrArg Value.integer (beq_iff_eq.mp zero))
          rw [unbound]
          rfl
        | float dval => exact float dval rfl zero
        | _ => cases zero
    · cases callable : argument.isCallable with
      | true => rw [boolval_of_callable callable, falls (called callable)]
      | false =>
        rw [← same callable]
        cases truth : value.boolval with
        | true => simp [chosen, truth]
        | false => exact (falls truth).symm
  · rintro ⟨agree, kept⟩
    have falls : value.boolval = false → chosen platform entries value = false := by
      intro falsy
      cases callable : argument.isCallable with
      | true => rw [← kept, boolval_of_callable callable]
      | false => rw [← kept, ← same callable, falsy]
    constructor
    · intro zero
      exact (chosen_false.mp (falls (congrArg Value.boolval zero))).2 zero
    · intro dval is zero
      have falsy : value.boolval = false := by
        rw [is]
        exact congrArg not zero
      refine (holds_false.mp (agree.trans (falls falsy))).2 ?_
      rw [is]
      exact zero
    · intro callable
      exact (chosen_false.mp (kept.symm.trans (boolval_of_callable callable))).1

theorem branch_eq_iff (different : options.program ≠ options.inverse) {left right : Bool} :
    options.branch left = options.branch right ↔ left = right := by
  unfold Options.branch
  cases left <;> cases right <;> simp [different, Ne.symm different]

/-- `#if` and `#unless` do what they owe just where the argument returns, if it is a function,
and its two programs are one or the values are plain. -/
theorem if_unless_opposite_iff {addr : Nat} (hash : options.hash = some (.map addr entries))
    (builtin : lookupHelper env (bytes "if") machine =
      (.ok (some (.helper (.builtin .ifHelper))) machine, [])) :
    Opposite env call argument options entries machine ↔
      ∃ value after log, tested call argument options machine = (.ok value after, log) ∧
        (options.program = options.inverse ∨ Plain env.platform entries argument value) := by
  have unlessRuns := unlessBlock_runs call argument hash builtin
  constructor
  · rintro ⟨ifRuns, agree⟩
    by_cases returned : ∃ value after log,
        tested call argument options machine = (.ok value after, log)
    · obtain ⟨value, after, log, ran⟩ := returned
      refine ⟨value, after, log, ran, ?_⟩
      by_cases one : options.program = options.inverse
      · exact .inl one
      · have runs := ifBlock_runs env hash ran
        refine .inr ((plain_iff (tested_same ran)).mpr ⟨?_, ?_⟩)
        · exact (branch_eq_iff one).mp ((ifRuns value after log ran).unique runs)
        · cases truth : argument.boolval with
          | true =>
            rw [Value.isEmpty, truth] at unlessRuns
            cases falls : chosen env.platform entries value with
            | true => rfl
            | false =>
              rw [falls] at runs
              exact absurd ((agree.mpr runs).unique unlessRuns) one
          | false =>
            rw [Value.isEmpty, truth] at unlessRuns
            exact (branch_eq_iff one).mp ((agree.mp unlessRuns).unique runs)
    · -- A function is false to `#unless`, which does not call it.
      have callable : argument.isCallable = true := by
        by_contra notCallable
        exact returned ⟨argument, machine, [], by rw [tested, if_neg notCallable]; rfl⟩
      rw [Value.isEmpty, boolval_of_callable callable] at unlessRuns
      obtain ⟨value, after, log, ran, -⟩ := (ifBlock_runs_iff hash _).mp (agree.mp unlessRuns)
      exact absurd ⟨value, after, log, ran⟩ returned
  · rintro ⟨value, after, log, ran, one | plain⟩
    · have either : ∀ left right, options.branch left = options.branch right := by
        intro left right
        unfold Options.branch
        rw [one, ite_self, ite_self]
      have runs := ifBlock_runs env hash ran
      constructor
      · intro other _ _ _
        rw [either (holds env.platform entries other)]
        exact runs
      · change Runs _ _ (options.branch true) _ _ ↔ Runs _ _ (options.branch false) _ _
        rw [either true (!argument.boolval), either false (chosen env.platform entries value)]
        exact iff_of_true unlessRuns runs
    · obtain ⟨agree, kept⟩ := (plain_iff (tested_same ran)).mp plain
      have runs := ifBlock_runs env hash ran
      constructor
      · intro other later events ranToo
        rw [ran] at ranToo
        cases ranToo
        rw [agree]
        exact runs
      · rw [Value.isEmpty, kept] at unlessRuns
        cases falls : chosen env.platform entries value with
        | true =>
          rw [falls] at runs unlessRuns
          constructor
          · intro also
            have one : options.inverse = options.program := unlessRuns.unique also
            rw [one]
            exact runs
          · intro also
            have one : options.program = options.inverse := runs.unique also
            rw [one]
            exact unlessRuns
        | false =>
          rw [falls] at runs unlessRuns
          exact iff_of_true unlessRuns runs

/-- A block with two programs and this hash. -/
def conditionalOptions (entries : List (Str × Value Unit)) : Options Unit where
  name := none
  hash := some (.map 3 entries)
  scope := .null
  data := none
  inverse := 2
  program := 1

/-- Without an `includeZero` the blocks of a string are opposite. -/
theorem if_unless_opposite_string : Opposite pairEnv (level pairEnv 1).valueCall
    (.string (bytes "a") false) (conditionalOptions []) [] ⟨vmCtor true, []⟩ :=
  (if_unless_opposite_iff rfl rfl).mpr
    ⟨.string (bytes "a") false, ⟨vmCtor true, []⟩, [], rfl, .inr ⟨nofun, nofun, nofun⟩⟩

/-- `{{#if n includeZero=false}}` of an integer 0 runs its first program. -/
theorem if_includeZero_false : ¬Opposite pairEnv (level pairEnv 1).valueCall (.integer 0)
    (conditionalOptions [(bytes "includeZero", .boolean false)])
    [(bytes "includeZero", .boolean false)] ⟨vmCtor true, []⟩ := by
  intro owed
  have zero : tested (level pairEnv 1).valueCall (.integer 0)
      (conditionalOptions [(bytes "includeZero", .boolean false)])
      (⟨vmCtor true, []⟩ : Machine Unit Unit) = (.ok (.integer 0) ⟨vmCtor true, []⟩, []) := rfl
  have runs := ifBlock_runs pairEnv rfl zero
  have wanted := owed.ifRuns (.integer 0) ⟨vmCtor true, []⟩ [] zero
  have one := runs.unique wanted
  revert one
  decide

end Exec

end HandlebarsC
