import HandlebarsC.Vm.Merge

/-!
`#each` over the elements of a native array or map: what its program is run with, and how often.
-/

namespace HandlebarsC

open Effect

namespace StrMap

variable {α : Type} {hash : StringHash} (keep : Str → Bool)

end StrMap

namespace Exec

variable {μ κ : Type} {hash : StringHash} {env : Env μ κ} {rec : Rec μ κ}

/-- A key of the data that `handlebars_builtin_each` sets. -/
def isEachName (hash : StringHash) (key : Str) : Bool :=
  [EachName.index, .key, .first, .last].any fun name => stringEq hash key name.text

/-- The variables of some data that `#each` does not set. -/
def otherVariables (hash : StringHash) (data : Value μ) : StrMap (Value μ) :=
  ((shownEntries hash data).getD []).filter fun entry => !isEachName hash entry.1

/-- The elements of a native array or map, with their keys. -/
def elements : Value μ → List (Option Str × Value μ)
  | .array _ items => items.map fun item => (none, item)
  | .map _ entries => entries.map fun entry => (some entry.1, entry.2)
  | _ => []

def Native : Value μ → Prop
  | .user _ _ => False
  | _ => True

/-- What `handlebars_vm_execute_program_ex` is called with. -/
structure Call (μ : Type) where
  context : Value μ
  data : Value μ
  blockParams : Value μ

/-- The call for one element, of so many, in a place where the other variables are these. -/
structure CallsWith (hash : StringHash) (others : StrMap (Value μ)) (count index : Nat)
    (element : Option Str × Value μ) (call : Call μ) : Prop where
  context : call.context = element.2
  data : ∃ addr entries, call.data = .map addr entries ∧
    ∀ name, StrMap.find hash entries (EachName.text name) =
      some (Iteration.value ⟨index, count - 1, eachKey index element.1⟩ name)
  others : otherVariables hash call.data = others
  blockParams : ∃ addr, call.blockParams = .array addr [element.2, eachKey index element.1]

/-- The program runs once for each element, in their order, with the calls that are due, and
nothing else happens: its texts and its events come one after the other. -/
inductive RunsOver (rec : Rec μ κ) (program : Int)
    (due : Nat → Option Str × Value μ → Call μ → Prop) :
    Nat → List (Option Str × Value μ) → Machine μ κ → Str → List (Event μ κ) → Machine μ κ → Prop
  | done : RunsOver rec program due index [] machine [] [] machine
  | run (alloc : Nat) (call : Call μ) (right : due index element call)
      (ran : rec.executeProgramEx program call.context (some call.data) (some call.blockParams)
        { machine with vm := { machine.vm with alloc := alloc } } = (.ok text between, log))
      (later : RunsOver rec program due (index + 1) rest between texts logs after) :
      RunsOver rec program due index (element :: rest) machine (text ++ texts) (log ++ logs) after

/-- One of these runs of the program does not return, where those before it did. -/
inductive StopsOver (rec : Rec μ κ) (program : Int)
    (due : Nat → Option Str × Value μ → Call μ → Prop) :
    Nat → List (Option Str × Value μ) → Machine μ κ → Prop
  | here (alloc : Nat) (call : Call μ) (right : due index element call)
      (stopped : ∀ text between log,
        rec.executeProgramEx program call.context (some call.data) (some call.blockParams)
          { machine with vm := { machine.vm with alloc := alloc } } ≠ (.ok text between, log)) :
      StopsOver rec program due index (element :: rest) machine
  | later (alloc : Nat) (call : Call μ) (right : due index element call)
      (ran : rec.executeProgramEx program call.context (some call.data) (some call.blockParams)
        { machine with vm := { machine.vm with alloc := alloc } } = (.ok text between, log))
      (later : StopsOver rec program due (index + 1) rest between) :
      StopsOver rec program due index (element :: rest) machine

/-- What `#each` runs: without elements the inverse program, with the enclosing context, and else
its program for each element, with the context marked meanwhile. -/
def RunsEach (hash : StringHash) (rec : Rec μ κ) (options : Options μ) (context : Value μ)
    (others : StrMap (Value μ)) (machine : Machine μ κ) (text : Str) (log : List (Event μ κ))
    (after : Machine μ κ) : Prop :=
  if elements context = [] then
    ∃ alloc, rec.executeProgramEx options.inverse options.scope none none
      { machine with vm := { machine.vm with alloc := alloc } } = (.ok text after, log)
  else
    ∃ alloc begun ended,
      beginIteration context { machine with vm := { machine.vm with alloc := alloc } } =
        (.ok () begun, []) ∧
      RunsOver rec options.program (CallsWith hash others (elements context).length) 0
        (elements context) begun text log ended ∧
      endIteration context ended = (.ok () after, [])

/-- A program that `#each` runs does not return. -/
def StopsEach (hash : StringHash) (rec : Rec μ κ) (options : Options μ) (context : Value μ)
    (others : StrMap (Value μ)) (machine : Machine μ κ) : Prop :=
  if elements context = [] then
    ∃ alloc, ∀ text after log, rec.executeProgramEx options.inverse options.scope none none
      { machine with vm := { machine.vm with alloc := alloc } } ≠ (.ok text after, log)
  else
    ∃ alloc begun,
      beginIteration context { machine with vm := { machine.vm with alloc := alloc } } =
        (.ok () begun, []) ∧
      StopsOver rec options.program (CallsWith hash others (elements context).length) 0
        (elements context) begun

/-- `#each` with an argument that is resolved returns the texts of what it runs, unless a program
that it runs does not return. -/
def EachEnds (env : Env μ κ) (rec : Rec μ κ) (arguments : List (Value μ)) (options : Options μ)
    (context : Value μ) (others : StrMap (Value μ)) (resolving : List (Event μ κ))
    (machine middle : Machine μ κ) : Prop :=
  (∃ text later after, builtinEach env rec arguments options machine =
      (.ok (.string text false) after, resolving ++ later) ∧
    RunsEach env.platform.hash rec options context others middle text later after) ∨
  StopsEach env.platform.hash rec options context others middle

/-- The entries that `#each` copies from the data around it. -/
def copied (hash : StringHash) : Value μ → StrMap (Value μ)
  | .map _ entries => entries.map fun entry => (entry.1, entry.2.plain hash)
  | .user _ (.object members) => StrMap.updateAll hash [] (staleEntries hash .null members)
  | _ => []

section Kept

variable {members : List (Str × Json)}

end Kept

theorem children_native {context : Value μ} (native : Native context) :
    children context = (elements context).map fun item => (item.1, .value item.2) := by
  cases context with
  | user => exact native.elim
  | array addr items =>
    unfold children elements
    rw [List.map_map]
    rfl
  | map addr entries =>
    unfold children elements
    rw [List.map_map]
    rfl
  | _ => rfl

theorem length_elements {context : Value μ} (native : Native context)
    (collection : context.type = .map ∨ context.type = .array) :
    ((elements context).length : Int) = context.count := by
  cases context with
  | user => exact native.elim
  | array addr items => simp [elements, Value.count]
  | map addr entries => simp [elements, Value.count]
  | boolean value => cases value <;> simp [Value.type, Value.realType] at collection
  | _ => simp [Value.type, Value.realType] at collection

theorem elements_eq_nil {context : Value μ}
    (other : ¬(context.type = .map ∨ context.type = .array)) : elements context = [] := by
  cases context with
  | array addr items => exact absurd (.inr rfl) other
  | map addr entries => exact absurd (.inl rfl) other
  | _ => rfl

/-- The end of an iteration leaves the data. -/
theorem endIteration_data (context : Value μ) (machine : Machine μ κ) : ∃ after,
    endIteration context machine = (.ok () after, []) ∧ after.vm.data = machine.vm.data := by
  cases context with
  | map addr entries => cases entries <;> exact ⟨_, rfl, rfl⟩
  | _ => exact ⟨machine, rfl, rfl⟩

section Ends

variable {context data : Value μ} {options : Options μ} {machine middle : Machine μ κ}

/-- Where there are no elements, the inverse program makes the text. -/
theorem inverse_ends (others : StrMap (Value μ)) (noElements : elements context = []) (alloc : Nat) :
    (∃ text later after, (do
        let text ← executeProgram rec options.inverse options.scope
        pure (.string text false) : Exec μ κ (Value μ))
          { middle with vm := { middle.vm with alloc := alloc } } =
        (.ok (.string text false) after, later) ∧
      RunsEach hash rec options context others middle text later after) ∨
    StopsEach hash rec options context others middle := by
  unfold RunsEach StopsEach
  simp only [if_pos noElements]
  by_cases returns : ∃ text after log, rec.executeProgramEx options.inverse options.scope none none
      { middle with vm := { middle.vm with alloc := alloc } } = (.ok text after, log)
  · obtain ⟨text, after, log, ran⟩ := returns
    refine .inl ⟨text, log, after, ?_, alloc, ran⟩
    have program : executeProgram rec options.inverse options.scope
        { middle with vm := { middle.vm with alloc := alloc } } = (.ok text after, log) := ran
    rw [Proc.bind_logged program]
    exact congrArg (Prod.mk _) (List.append_nil log)
  · refine .inr ⟨alloc, fun text after log ran => ?_⟩
    exact returns ⟨text, after, log, ran⟩

end Ends

section Stored

/-- Programs that only leave the data that they are given. -/
def storeRec : Rec μ κ where
  executeProgramEx := fun _ _ data _ => do
    writeVm fun vm => { vm with data := data.getD .null }
    pure []
  valueCall := fun _ _ _ => Proc.exhaust

theorem store_not_stops {program : Int} {due : Nat → Option Str × Value μ → Call μ → Prop}
    {index : Nat} {items : List (Option Str × Value μ)} {machine : Machine μ κ} :
    ¬StopsOver storeRec program due index items machine := by
  intro stops
  induction stops with
  | here alloc call right stopped => exact stopped _ _ _ rfl
  | later alloc call right ran later ih => exact ih

/-- The data of the last call stays. -/
theorem RunsOver.stored {program : Int} {others : StrMap (Value μ)} {count index : Nat}
    {items : List (Option Str × Value μ)} {machine after : Machine μ κ} {text : Str}
    {log : List (Event μ κ)}
    (runs : RunsOver storeRec program (CallsWith hash others count) index items machine text log after)
    (present : items ≠ []) : otherVariables hash after.vm.data = others := by
  induction runs with
  | done => exact absurd rfl present
  | run alloc call right ran later ih =>
    cases later with
    | done =>
      cases ran
      exact right.others
    | run => exact ih nofun

/-- After such programs the data of the machine tells with which other variables they ran. -/
theorem EachEnds.stored {context : Value μ} {others : StrMap (Value μ)} {options : Options μ}
    {arguments : List (Value μ)} {resolving : List (Event μ κ)} {machine middle : Machine μ κ}
    (ends : EachEnds env storeRec arguments options context others resolving machine middle)
    (nonempty : elements context ≠ []) : ∃ result after log,
    builtinEach env storeRec arguments options machine = (.ok result after, log) ∧
      otherVariables env.platform.hash after.vm.data = others := by
  unfold EachEnds RunsEach StopsEach at ends
  simp only [if_neg nonempty] at ends
  rcases ends with ⟨text, later, after, ran, alloc, begun, ended, -, runs, finished⟩ |
    ⟨alloc, begun, -, stops⟩
  · obtain ⟨last, returned, same⟩ := endIteration_data context ended
    rw [returned] at finished
    cases finished
    exact ⟨_, _, _, ran, by rw [same]; exact runs.stored nonempty⟩
  · exact absurd stops store_not_stops

end Stored

end Exec

end HandlebarsC
