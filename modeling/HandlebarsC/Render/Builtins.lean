import HandlebarsC.Render.Lookups
import HandlebarsC.Vm.Merge

/-!
The built-in helpers do what their meaning says, when the programs they run do.
-/

namespace HandlebarsC

open Effect Exec

namespace Render

variable {μ κ : Type} {stage : Stage μ κ} {view : View μ} {machine : Machine μ κ}
  {names : List BlockParamPair} {rec : Rec μ κ}

/-- What is meant is returned, and the view is as it was. -/
def Gives (stage : Stage μ κ) (view : View μ) (value returned : α) (after : Machine μ κ) : Prop :=
  returned = value ∧ Stands stage view after

/-- The data a program is run with, if any. -/
inductive DataGiven (owned : Nat → Prop) :
    Option (Value μ) → Option (StrMap (Value μ)) → Prop where
  | none : DataGiven owned none none
  | some (same : DataIs owned data entries) (inert : ∀ entry ∈ entries, entry.2.Inert owned) :
      DataGiven owned (some data) (some entries)

/-- The block parameters a program is run with, if any. -/
inductive ParamsGiven (owned : Nat → Prop) :
    Option (Value μ) → Option (List (Value μ)) → Prop where
  | none : ParamsGiven owned none none
  | some (inert : ∀ value ∈ items, value.Inert owned) :
      ParamsGiven owned (some (.array addr items)) (some items)

/-- The stacks of a scope have room for one more program: each program in progress has pushed
at most one context and one entry of block parameters. -/
structure Scope.Within (names : List BlockParamPair) (scope : Scope μ) : Prop where
  contexts : scope.contexts.length ≤ names.length
  blockParams : scope.blockParams.length ≤ names.length

/-- The scope of a program, which has a context. -/
structure Scope.Fits (names : List BlockParamPair) (scope : Scope μ) : Prop
    extends scope.Within names where
  nonempty : scope.contexts ≠ []

/-- A program of the VM does what a block is for, with these operands and hashes in hand. -/
def Carries (stage : Stage μ κ) (names : List BlockParamPair) (operands hashes : List (Value μ))
    (rec : Rec μ κ) (program : Int) (body : Body μ) : Prop :=
  ∀ (scope : Scope μ) (text : Str) (machine : Machine μ κ) (context : Value μ)
    (data : Option (Value μ)) (entries : Option (StrMap (Value μ))) (blockParams : Option (Value μ))
    (items : Option (List (Value μ))),
    Stands stage ⟨operands, hashes, scope, text⟩ machine → scope.Inert stage.owned →
    scope.Within names → context.Inert stage.owned → DataGiven stage.owned data entries →
    ParamsGiven stage.owned blockParams items →
    Does (rec.executeProgramEx program context data blockParams)
      (body (scope.enter stage.mode.platform context entries items))
      (Gives stage ⟨operands, hashes, scope, text⟩) machine

/-- A missing program gives no text. -/
theorem carries_none (stage : Stage μ κ) (names : List BlockParamPair)
    (operands hashes : List (Value μ)) (enough : 1 ≤ fuel) :
    Carries stage names operands hashes (level stage.env fuel) (-1) noBody := by
  obtain ⟨fuel, rfl⟩ : ∃ less, fuel = less + 1 := ⟨fuel - 1, by omega⟩
  intro scope text machine context data entries blockParams items stands
  intros
  exact ⟨rfl, stands⟩

/-- Options that ask a helper for what the call says, when calls may be nested so deep. -/
structure Asks (stage : Stage μ κ) (names : List BlockParamPair) (bound : Nat) (view : View μ)
    (call : Invocation μ) (options : Options μ) : Prop where
  hash : ∃ addr, options.hash = some (.map addr call.hash)
  scope : options.scope = view.scope.this
  data : ∃ data, options.data = some data ∧ DataIs stage.owned data view.scope.data
  program : ∀ fuel, bound ≤ fuel → Carries stage names view.operands view.hashes
    (level stage.env fuel) options.program call.program
  inverse : ∀ fuel, bound ≤ fuel → Carries stage names view.operands view.hashes
    (level stage.env fuel) options.inverse call.inverse
  args : ∀ value ∈ call.args, value.Inert stage.owned

theorem textValue_does {proc : Exec μ κ Str} {result : Meaning Str}
    (does : Does proc result (Gives stage view) machine) :
    Does (do
      let text ← proc
      pure (.string text false) : Exec μ κ (Value μ)) (textValue result) (Gives stage view)
      machine := by
  refine Proc.does_bind does ?_
  rintro _ text after - ⟨rfl, stands⟩
  exact ⟨rfl, stands⟩

/-- A program in the scope around its block. -/
theorem plain_does {program : Int} {body : Body μ}
    (carries : Carries stage names view.operands view.hashes rec program body)
    (stands : Stands stage view machine) (inert : view.scope.Inert stage.owned)
    (fits : view.scope.Fits names) :
    Does (executeProgram rec program view.scope.this) (body (view.scope.plain stage.mode.platform))
      (Gives stage view) machine :=
  carries view.scope view.text machine view.scope.this none none none none stands inert
    fits.toWithin inert.this .none .none

theorem resolveArgument_inert {value : Value μ} {owned : Nat → Prop} (inert : value.Inert owned)
    (rec : Rec μ κ) (options : Options μ) : resolveArgument rec value options = pure value := by
  unfold resolveArgument
  rw [inert.notCallable, if_neg Bool.false_ne_true]

section Iteration

/-- The loop of `#each` gives the texts of its elements one after the other. -/
theorem eachLoop_does {options : Options μ} {call : Invocation μ}
    (carries : Carries stage names view.operands view.hashes rec options.program call.program)
    (fits : view.scope.Fits names) (inert : view.scope.Inert stage.owned) (last index : Nat)
    (data : StrMap (Value μ)) (stale : Value μ) (items : List (Option Str × Value μ)) (before : Str)
    (entries : ∀ entry ∈ data, entry.2.Inert stage.owned)
    (elements : ∀ item ∈ items, item.2.Inert stage.owned) (stands : Stands stage view machine) :
    Does (eachLoop stage.env rec options last index (some data) stale
        (items.map fun item => (item.1, .value item.2)) before)
      (eachText stage.mode view.scope call last index data items)
      (fun text returned after => returned = before ++ text ∧ Stands stage view after)
      machine := by
  induction items generalizing index data stale before machine with
  | nil => exact ⟨(List.append_nil before).symm, stands⟩
  | cons element rest ih =>
    obtain ⟨key, value⟩ := element
    obtain ⟨here, later⟩ := List.forall_mem_cons.mp elements
    rw [List.map_cons]
    unfold eachLoop childValue eachText
    rw [pure_bind]
    refine Proc.does_step (allocate_does stands) ?_
    rintro addr first ⟨outside, stands⟩
    refine Proc.does_step (allocate_does stands) ?_
    rintro paramsAddr second ⟨-, stands⟩
    have keyInert : (eachKey index key : Value μ).Inert stage.owned := eachKey_all index key
    have frame := @eachData_all _ _ _ stage.mode.platform _ entries index last _ keyInert
    rw [stage.platform]
    refine Proc.does_bind (carries view.scope view.text second value _
      (some (eachData stage.mode.platform data index last (eachKey index key))) _
      (some [value, eachKey index key]) stands inert fits.toWithin here ?_ ?_) ?_
    · exact .some (.map outside) frame
    · refine .some ?_
      intro item member
      rcases List.mem_cons.mp member with rfl | member
      · exact here
      · rw [List.mem_singleton.mp member]
        exact keyInert
    · rintro _ text between - ⟨rfl, stands⟩
      refine Proc.does_map (ih (index + 1) _ value (before ++ text) frame later stands) ?_
      rintro others _ after - ⟨rfl, stands⟩
      exact ⟨List.append_assoc _ _ _, stands⟩

theorem iterate_map (scope : Scope μ) (addr : Nat) (first : Str × Value μ)
    (rest : List (Str × Value μ)) : scope.iterate (.map addr (first :: rest)) =
      if scope.iterating.contains addr then .error .crash
      else pure { scope with iterating := addr :: scope.iterating } := rfl

/-- The iteration of a map marks it, and that of anything else marks nothing. -/
theorem iterate_ok {scope after : Scope μ} {context : Value μ}
    (begun : scope.iterate context = .ok after) :
    (after = scope ∧ ∀ addr first rest, context ≠ .map addr (first :: rest)) ∨
      ∃ addr first rest, context = .map addr (first :: rest) ∧
        after = { scope with iterating := addr :: scope.iterating } := by
  cases context with
  | map addr entries =>
    cases entries with
    | nil =>
      cases begun
      exact .inl ⟨rfl, by simp⟩
    | cons first rest =>
      right
      rw [iterate_map] at begun
      split at begun
      · cases begun
      · rw [← Except.ok.inj begun]
        exact ⟨addr, first, rest, rfl, rfl⟩
  | _ =>
    cases begun
    exact .inl ⟨rfl, by simp⟩

theorem iterate_does {context : Value μ} (inert : context.Inert stage.owned)
    (stands : Stands stage view machine) :
    Does (beginIteration context) (view.scope.iterate context)
      (fun scope _ after => Stands stage { view with scope := scope } after) machine := by
  cases context with
  | user => exact inert.elim
  | map addr entries =>
    cases entries with
    | nil => exact stands
    | cons first rest =>
      unfold beginIteration
      rw [iterate_map]
      refine Proc.does_ran (readVm_ran _ _) ?_
      rw [stands.iterating]
      split
      · exact abort_does
      · obtain ⟨stackSet, present, stacked⟩ := stands.stackSet
        refine Proc.does_end (show _ = (Outcome.ok _ (machine.marked addr), _) from rfl) ?_
        exact ⟨stands.module, stands.flags, stands.jmp, stands.helpers, stands.logFunc,
          stands.lastHelper, stands.buffer, stands.data, congrArg (addr :: ·) stands.iterating, stands.lastContext,
          stands.alloc, stackSet, present, { stacked with }⟩
  | _ => exact stands

theorem endIteration_does {context : Value μ} {scope : Scope μ}
    (begun : view.scope.iterate context = .ok scope)
    (stands : Stands stage { view with scope := scope } machine) :
    Does (endIteration context) (.ok ()) (fun _ _ after => Stands stage view after) machine := by
  rcases iterate_ok begun with ⟨rfl, unmarked⟩ | ⟨addr, first, rest, rfl, rfl⟩
  · cases context with
    | map addr entries =>
      cases entries with
      | nil => exact stands
      | cons first rest => exact absurd rfl (unmarked addr first rest)
    | _ => exact stands
  · obtain ⟨stackSet, present, stacked⟩ := stands.stackSet
    refine Proc.does_end (show _ = (Outcome.ok _ (machine.unmarked addr), _) from rfl) ?_
    refine ⟨stands.module, stands.flags, stands.jmp, stands.helpers, stands.logFunc,
      stands.lastHelper, stands.buffer, stands.data, ?_, stands.lastContext, stands.alloc, stackSet, present,
      { stacked with }⟩
    change machine.vm.inIteration.erase addr = _
    rw [stands.iterating, List.erase_cons_head]

theorem iterate_data {scope after : Scope μ} {context : Value μ}
    (begun : scope.iterate context = .ok after) : after.data = scope.data := by
  rcases iterate_ok begun with ⟨rfl, -⟩ | ⟨addr, first, rest, -, rfl⟩
  · rfl
  · rfl

theorem Scope.Inert.iterate {owned : Nat → Prop} {scope after : Scope μ} {context : Value μ}
    (inert : scope.Inert owned) (inside : context.Inert owned)
    (begun : scope.iterate context = .ok after) : after.Inert owned := by
  rcases iterate_ok begun with ⟨rfl, -⟩ | ⟨addr, first, rest, rfl, rfl⟩
  · exact inert
  · exact ⟨⟨inert.contexts, inert.data, inert.blockParams⟩,
      List.forall_mem_cons.mpr ⟨inside.1, inert.iterating⟩⟩

theorem Scope.Fits.iterate {scope after : Scope μ} {context : Value μ} (fits : scope.Fits names)
    (begun : scope.iterate context = .ok after) : after.Fits names := by
  rcases iterate_ok begun with ⟨rfl, -⟩ | ⟨addr, first, rest, -, rfl⟩
  · exact fits
  · exact ⟨⟨fits.contexts, fits.blockParams⟩, fits.nonempty⟩

/-- The copy of the data, which is not a map of the context and so not being iterated. -/
theorem eachDataMap_does {options : Options μ} {data : Value μ} (given : options.data = some data)
    (same : DataIs stage.owned data view.scope.data) (inert : view.scope.Inert stage.owned)
    (stands : Stands stage view machine) :
    Does (eachDataMap stage.env options) (.ok ()) (fun _ returned after => returned =
      some (StrMap.updateAll stage.mode.platform.hash [] view.scope.data) ∧ after = machine)
      machine := by
  unfold eachDataMap
  rw [given]
  generalize known : view.scope.data = entries at same ⊢
  cases same with
  | other notMap =>
    dsimp only
    rw [if_neg notMap]
    exact ⟨rfl, rfl⟩
  | map outside =>
    rename_i addr
    have isMap : (Value.map addr entries).type = .map := rfl
    dsimp only
    rw [if_pos isMap, stage.platform]
    by_cases empty : entries = []
    · subst empty
      exact ⟨rfl, rfl⟩
    · have free : addr ∉ machine.vm.inIteration := by
        rw [stands.iterating]
        exact fun member => outside (inert.iterating addr member)
      exact Proc.does_ran (copyMap_ran empty free []) ⟨rfl, rfl⟩

theorem each_does {options : Options μ} {call : Invocation μ} {context : Value μ}
    (rest : List (Value μ)) (asks : Asks stage names bound view call options)
    (enough : bound ≤ fuel) (inside : context.Inert stage.owned) (fits : view.scope.Fits names)
    (inert : view.scope.Inert stage.owned) (stands : Stands stage view machine) :
    Does (builtinEach stage.env (level stage.env fuel) (context :: rest) options)
      (textValue (eachBlock stage.mode view.scope call context)) (Gives stage view) machine := by
  have inverse := plain_does (asks.inverse fuel enough) stands inert fits
  obtain ⟨data, given, same⟩ := asks.data
  unfold builtinEach eachBlock
  dsimp only
  rw [resolveArgument_inert inside, pure_bind, asks.scope]
  by_cases collection : context.type = .map ∨ context.type = .array
  · rw [if_pos collection]
    refine Proc.does_step (eachDataMap_does given same inert stands) ?_
    rintro _ _ ⟨rfl, rfl⟩
    have count := length_elements inside.native collection
    cases found : elements context with
    | nil =>
      rw [found] at count
      rw [if_pos (show context.count ≤ 0 from le_of_eq count.symm)]
      exact textValue_does inverse
    | cons first others =>
      have positive : ¬context.count ≤ 0 := by
        rw [← count, found, List.length_cons]
        omega
      have last : context.count.toNat - 1 = (first :: others).length - 1 := by
        rw [← count, found, Int.toNat_natCast]
      rw [if_neg positive, children_native inside.native, last, found]
      unfold textValue
      dsimp only
      rw [bind_assoc]
      refine Proc.does_bind (iterate_does inside stands) ?_
      intro scope _ begun start stands
      rw [show scope.data = view.scope.data from iterate_data start]
      have entries := @updateAll_all _ _ stage.mode.platform.hash ([] : StrMap (Value μ)) _
        (by simp) inert.data
      have loop := @eachLoop_does _ _ _ { view with scope := scope } _ _ _ _ _
        (asks.program fuel enough) (fits.iterate start) (inert.iterate inside start)
        ((first :: others).length - 1) 0 _ .null (first :: others) [] entries
        (found ▸ elements_all inside) stands
      refine Proc.does_bind loop ?_
      rintro text _ between - ⟨rfl, stands⟩
      refine Proc.does_step (endIteration_does start stands) ?_
      intro _ after stands
      exact ⟨rfl, stands⟩
  · rw [if_neg collection, elements_eq_nil collection]
    exact textValue_does inverse

end Iteration

section Builtins

variable {bound fuel : Nat} {call : Invocation μ} {options : Options μ}

theorem if_does {argument : Value μ} (asks : Asks stage names bound view call options)
    (enough : bound ≤ fuel) (inside : argument.Inert stage.owned) (fits : view.scope.Fits names)
    (inert : view.scope.Inert stage.owned) (stands : Stands stage view machine) :
    Does (builtinIf stage.env (level stage.env fuel) [argument] options)
      (textValue (ifBlock stage.mode view.scope call argument)) (Gives stage view) machine := by
  obtain ⟨addr, hash⟩ := asks.hash
  unfold builtinIf ifBlock
  dsimp only
  rw [resolveArgument_inert inside, pure_bind, isTrue_eq hash, pure_bind, asks.scope,
    stage.platform]
  cases chosen stage.mode.platform call.hash argument with
  | true => exact textValue_does (plain_does (asks.program fuel enough) stands inert fits)
  | false => exact textValue_does (plain_does (asks.inverse fuel enough) stands inert fits)

theorem with_does {argument : Value μ} (asks : Asks stage names bound view call options)
    (enough : bound ≤ fuel) (inside : argument.Inert stage.owned) (fits : view.scope.Fits names)
    (inert : view.scope.Inert stage.owned) (stands : Stands stage view machine) :
    Does (builtinWith (level stage.env fuel) [argument] options)
      (textValue (withBlock stage.mode view.scope call argument)) (Gives stage view) machine := by
  obtain ⟨data, given, same⟩ := asks.data
  unfold builtinWith withBlock
  dsimp only
  rw [resolveArgument_inert inside, pure_bind, given]
  split
  · exact textValue_does (asks.inverse fuel enough view.scope view.text machine argument none none
      none none stands inert fits.toWithin inside .none .none)
  · refine Proc.does_step (allocate_does stands) ?_
    rintro addr after ⟨-, stands⟩
    refine textValue_does (asks.program fuel enough view.scope view.text after argument (some data)
      (some view.scope.data) _ (some [argument]) stands inert fits.toWithin inside
      (.some same inert.data) (.some ?_))
    intro value member
    rw [List.mem_singleton.mp member]
    exact inside

/-- The built-in helpers are found where no helper is registered. -/
theorem lookupHelper_does (stands : Stands stage view machine) (name : Str) :
    lookupHelper stage.env name machine =
      (.ok ((builtinsFind name).map fun builtin => .helper (.builtin builtin)) machine, []) := by
  obtain ⟨addr, helpers⟩ := stands.helpers
  unfold lookupHelper
  rw [Proc.bind_ran (readVm_ran _ _), helpers]
  rfl

/-- A call by name needs one more level of calls. -/
theorem callHelperStr_does {name : Str} {builtin : Builtin} {argv : List (Value μ)}
    {result : Meaning (Value μ)} (found : builtinsFind name = some builtin)
    (stands : Stands stage view machine)
    (does : Does (Exec.callBuiltin stage.env (level stage.env fuel) builtin argv options) result
      (Gives stage view) machine) :
    Does (callHelperStr stage.env (level stage.env (fuel + 1)) name argv options) result
      (fun value returned after => returned = some value ∧ Stands stage view after) machine := by
  unfold callHelperStr
  refine Proc.does_ran (lookupHelper_does stands name) ?_
  rw [found, ← bind_pure result]
  refine Proc.does_bind does ?_
  rintro _ value after - ⟨rfl, stands⟩
  exact ⟨rfl, stands⟩

theorem nonnull_does {proc : Exec μ κ (Option α)} {result : Meaning α}
    (does : Does proc result (fun value returned after => returned = some value ∧
      Stands stage view after) machine) :
    Does (do nonnull (← proc)) result (Gives stage view) machine := by
  rw [← bind_pure result]
  refine Proc.does_bind does ?_
  rintro value _ after - ⟨rfl, stands⟩
  exact ⟨rfl, stands⟩

theorem unless_does {argument : Value μ} (asks : Asks stage names bound view call options)
    (enough : bound + 1 ≤ fuel) (fits : view.scope.Fits names)
    (inert : view.scope.Inert stage.owned) (stands : Stands stage view machine) :
    Does (builtinUnless stage.env (level stage.env fuel) [argument] options)
      (textValue (ifBlock stage.mode view.scope call (.boolean argument.isEmpty)))
      (Gives stage view) machine := by
  obtain ⟨fuel, rfl⟩ : ∃ less, fuel = less + 1 := ⟨fuel - 1, by omega⟩
  unfold builtinUnless
  dsimp only
  have flipped := if_does asks (Nat.le_of_succ_le_succ enough)
    (show (Value.boolean argument.isEmpty).Inert stage.owned from trivial) fits inert stands
  exact nonnull_does (callHelperStr_does (show builtinsFind _ = some .ifHelper by decide) stands flipped)

theorem blockHelperMissing_does {value : Value μ} {rest : List (Value μ)}
    (asks : Asks stage names bound view call options) (enough : bound + 1 ≤ fuel)
    (inside : value.Inert stage.owned) (fits : view.scope.Fits names)
    (inert : view.scope.Inert stage.owned) (stands : Stands stage view machine) :
    Does (builtinBlockHelperMissing stage.env (level stage.env fuel) (value :: rest) options)
      (textValue (valueBlock stage.mode view.scope call value)) (Gives stage view) machine := by
  obtain ⟨fuel, rfl⟩ : ∃ less, fuel = less + 1 := ⟨fuel - 1, by omega⟩
  have program := asks.program (fuel + 1) (Nat.le_of_succ_le enough)
  have inverse := asks.inverse (fuel + 1) (Nat.le_of_succ_le enough)
  unfold builtinBlockHelperMissing valueBlock
  dsimp only
  rw [asks.scope]
  split
  · exact textValue_does (plain_does program stands inert fits)
  · split
    · exact textValue_does (plain_does inverse stands inert fits)
    · split
      · exact nonnull_does (callHelperStr_does (show builtinsFind _ = some .each by decide) stands
          (each_does [] asks (Nat.le_of_succ_le_succ enough) inside fits inert stands))
      · exact textValue_does (program view.scope view.text machine value none none none none stands
          inert fits.toWithin inside .none .none)

theorem lookup_does {context field : Value μ} {rest : List (Value μ)}
    (inside : context.Inert stage.owned) (stands : Stands stage view machine) :
    Does (builtinLookup stage.env (context :: field :: rest))
      (lookupValue stage.mode context field) (Gives stage view) machine := by
  unfold builtinLookup lookupValue
  dsimp only
  rw [mapFind_entry inside, pure_bind, arrayFind_element inside, pure_bind, stage.platform]
  split
  · exact ⟨rfl, stands⟩
  · split
    · cases element context field.intval with
      | none => exact abort_does
      | some found => exact ⟨rfl, stands⟩
    · exact ⟨rfl, stands⟩

/-- Every built-in helper does what it is for. -/
theorem callBuiltin_does (builtin : Builtin) (asks : Asks stage names bound view call options)
    (named : options.name = call.name) (enough : bound + 1 ≤ fuel) (fits : view.scope.Fits names)
    (inert : view.scope.Inert stage.owned) (stands : Stands stage view machine) :
    Does (Exec.callBuiltin stage.env (level stage.env fuel) builtin call.args options)
      (callBuiltin stage.mode view.scope call builtin) (Gives stage view) machine := by
  have less : bound ≤ fuel := Nat.le_of_succ_le enough
  have args := asks.args
  unfold Exec.callBuiltin callBuiltin
  cases builtin with
  | blockHelperMissing =>
    cases given : call.args with
    | nil =>
      dsimp only
      unfold builtinBlockHelperMissing
      dsimp only
      rw [asks.scope]
      exact textValue_does (plain_does (asks.inverse fuel less) stands inert fits)
    | cons value rest =>
      exact blockHelperMissing_does asks enough (args value (by simp [given])) fits inert stands
  | helperMissing =>
    cases given : call.args with
    | nil => exact ⟨rfl, stands⟩
    | cons value rest =>
      dsimp only
      unfold builtinHelperMissing
      rw [named, if_pos (by simp)]
      cases call.name with
      | none => exact abort_does
      | some name => exact raiseError_does stands _
  | each =>
    cases given : call.args with
    | nil => exact raiseError_does stands _
    | cons value rest =>
      exact each_does rest asks less (args value (by simp [given])) fits inert stands
  | ifHelper =>
    cases given : call.args with
    | nil => exact raiseError_does stands _
    | cons value rest =>
      cases rest with
      | nil => exact if_does asks less (args value (by simp [given])) fits inert stands
      | cons other rest => exact raiseError_does stands _
  | «unless» =>
    cases given : call.args with
    | nil => exact raiseError_does stands _
    | cons value rest =>
      cases rest with
      | nil => exact unless_does asks enough fits inert stands
      | cons other rest => exact raiseError_does stands _
  | «with» =>
    cases given : call.args with
    | nil => exact raiseError_does stands _
    | cons value rest =>
      cases rest with
      | nil => exact with_does asks less (args value (by simp [given])) fits inert stands
      | cons other rest => exact raiseError_does stands _
  | log =>
    dsimp only
    unfold builtinLog
    refine Proc.does_ran (readVm_ran _ _) ?_
    rw [stands.logFunc]
    refine Proc.does_ran (readVm_ran _ _) ?_
    rw [stands.iterating]
    split
    · exact ⟨rfl, stands⟩
    · exact abort_does
  | lookup =>
    cases given : call.args with
    | nil => exact raiseError_does stands _
    | cons value rest =>
      cases rest with
      | nil => exact raiseError_does stands _
      | cons field rest => exact lookup_does (args value (by simp [given])) stands
  | setDelimiters =>
    dsimp only
    unfold builtinSetDelimiters
    split
    · exact ⟨rfl, stands.withDelimiters _ _⟩
    · exact ⟨rfl, stands⟩

end Builtins

end Render

end HandlebarsC
