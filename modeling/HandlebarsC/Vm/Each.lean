import HandlebarsC.Vm.Found

/-!
The data that `#each` gives its body, in nests of loops, and what data paths find there.
-/

namespace HandlebarsC

open Effect

/-- An iteration of a loop: its place, the last place, and the key or index of its element. -/
structure Iteration (μ : Type) where
  index : Nat
  last : Nat
  key : Value μ

/-- The data that `handlebars_builtin_each` sets. -/
inductive EachName where
  | index
  | key
  | first
  | last

namespace EachName

def text : EachName → Str
  | index => bytes "index"
  | key => bytes "key"
  | first => bytes "first"
  | last => bytes "last"

end EachName

/-- The value of the current iteration. -/
def Iteration.value (iteration : Iteration μ) : EachName → Value μ
  | .index => .integer iteration.index
  | .key => iteration.key
  | .first => .boolean (iteration.index == 0)
  | .last => .boolean (iteration.index == iteration.last)

namespace Exec

variable {μ κ : Type} {env : Env μ κ} {rec : Rec μ κ}

/-- `key` of the loop. -/
def eachKey (index : Nat) : Option Str → Value μ
  | some key => .string key false
  | none => .integer index

/-- Of the names that are set, only two are of one length. -/
theorem eachName_different {hash : StringHash} (names : hash (bytes "index") ≠ hash (bytes "first")) :
    stringEq hash (bytes "key") (bytes "index") = false ∧
    stringEq hash (bytes "first") (bytes "index") = false ∧
    stringEq hash (bytes "last") (bytes "index") = false ∧
    stringEq hash (bytes "first") (bytes "key") = false ∧
    stringEq hash (bytes "last") (bytes "key") = false ∧
    stringEq hash (bytes "last") (bytes "first") = false := by
  have lengths : ∀ left right : Str, left.length ≠ right.length →
      stringEq hash left right = false := by
    intro left right different
    simp [stringEq, different]
  refine ⟨lengths _ _ (by decide), ?_, lengths _ _ (by decide), lengths _ _ (by decide),
    lengths _ _ (by decide), lengths _ _ (by decide)⟩
  simpa [stringEq] using fun _ => names.symm

theorem find_eachData {platform : Platform}
    (names : platform.hash (bytes "index") ≠ platform.hash (bytes "first"))
    (before : List (Str × Value μ)) (iteration : Iteration μ) (name : EachName) :
    StrMap.find platform.hash
      (eachData platform before iteration.index iteration.last iteration.key) name.text =
      some (iteration.value name) := by
  obtain ⟨keyIndex, firstIndex, lastIndex, firstKey, lastKey, lastFirst⟩ := eachName_different names
  unfold eachData
  cases name <;> simp [EachName.text, Iteration.value, StrMap.find_update, *]

theorem find_eachData_parent {platform : Platform} (before : List (Str × Value μ)) (i len : Nat)
    (key : Value μ) :
    StrMap.find platform.hash (eachData platform before i len key) (bytes "_parent") =
      StrMap.find platform.hash before (bytes "_parent") := by
  have lengths : ∀ left : Str, left.length ≠ (bytes "_parent").length →
      stringEq platform.hash left (bytes "_parent") = false := by
    intro left different
    simp [stringEq, different]
  unfold eachData
  simp only [StrMap.find_update, lengths _ (show (bytes "index").length ≠ _ by decide),
    lengths _ (show (bytes "key").length ≠ _ by decide),
    lengths _ (show (bytes "first").length ≠ _ by decide),
    lengths _ (show (bytes "last").length ≠ _ by decide)]
  rfl

/-- The programs that are called get the data they are given. -/
def Enters (rec : Rec μ κ) : Prop :=
  ∀ program context data blockParams machine,
    (rec.executeProgramEx program context data blockParams).Logs Event.Uncaught
      (EnteredWith machine context data blockParams) (fun _ => Same machine) (fun _ => True) machine

theorem level_enters (env : Env μ κ) (fuel : Nat) : Enters (level env fuel) := by
  cases fuel with
  | zero => exact fun _ _ _ _ _ => Proc.logs_exhaust trivial
  | succ fuel => exact executeProgramEx_logs env fuel

theorem allocate_log (machine : Machine μ κ) : ((allocate : Exec μ κ Nat) machine).2 = [] :=
  Proc.silent_bind rfl fun _ _ => Proc.silent_bind rfl fun _ _ => rfl

theorem childValue_log (stale : Value μ) (child : Child μ) (machine : Machine μ κ) :
    ((childValue stale child : Exec μ κ (Value μ)) machine).2 = [] := by
  cases child with
  | value value => rfl
  | json json =>
    cases json with
    | array items => exact Proc.silent_bind (allocate_log machine) fun _ _ => rfl
    | object entries => exact Proc.silent_bind (allocate_log machine) fun _ _ => rfl
    | _ => rfl

/-- An opcode is executed in an iteration of a loop over `left`, whose places start at `start`,
and in its body itself with the data of the iteration. -/
def InIteration (platform : Platform) (machine : Machine μ κ) (last start : Nat)
    (left : List (Option Str × Child μ)) (dataMap : List (Str × Value μ)) : Event μ κ → Prop
  | .opcode vm activations _ _ => ∃ inner activation position key child,
      activations = inner ++ activation :: machine.activations ∧
      left[position]? = some (key, child) ∧
      (∃ addr value, activation.blockParams =
        some (.array addr [value, eachKey (start + position) key])) ∧
      (inner = [] → ∃ addr before,
        vm.data = .map addr
          (eachData platform before (start + position) last (eachKey (start + position) key)) ∧
        StrMap.find platform.hash before (bytes "_parent") =
          StrMap.find platform.hash dataMap (bytes "_parent"))
  | _ => True

theorem InIteration.same {platform : Platform} {machine after : Machine μ κ} {last start : Nat}
    {left : List (Option Str × Child μ)} {dataMap : List (Str × Value μ)} {event : Event μ κ}
    (inside : InIteration platform after last start left dataMap event)
    (activations : after.activations = machine.activations) :
    InIteration platform machine last start left dataMap event := by
  cases event with
  | opcode vm programs pc opcode =>
    obtain ⟨inner, activation, position, key, child, present, rest⟩ := inside
    exact ⟨inner, activation, position, key, child, by rw [present, activations], rest⟩
  | _ => trivial

/-- In a later part of the loop. -/
theorem InIteration.later {platform : Platform} {machine after : Machine μ κ} {last start : Nat}
    {entry : Option Str × Child μ} {rest : List (Option Str × Child μ)}
    {dataMap nextMap : List (Str × Value μ)} {event : Event μ κ}
    (inside : InIteration platform after last (start + 1) rest nextMap event)
    (activations : after.activations = machine.activations)
    (parent : StrMap.find platform.hash nextMap (bytes "_parent") =
      StrMap.find platform.hash dataMap (bytes "_parent")) :
    InIteration platform machine last start (entry :: rest) dataMap event := by
  cases event with
  | opcode vm programs pc opcode =>
    obtain ⟨inner, activation, position, key, child, present, found, params, own⟩ := inside
    have place : start + 1 + position = start + (position + 1) := by omega
    rw [place] at params own
    refine ⟨inner, activation, position + 1, key, child, by rw [present, activations], found,
      params, fun none => ?_⟩
    obtain ⟨addr, before, data, same⟩ := own none
    exact ⟨addr, before, data, same.trans parent⟩
  | _ => trivial

/-- The data and block parameters of the first iteration. -/
theorem inIteration_first {platform : Platform} {machine after : Machine μ κ} {last start : Nat}
    {key : Option Str} {child : Child μ} {rest : List (Option Str × Child μ)}
    {dataMap : List (Str × Value μ)} {event : Event μ κ} {value context : Value μ}
    (activations : after.activations = machine.activations)
    (entered : EnteredWith after context
      (some (.map addr (eachData platform dataMap start last (eachKey start key))))
      (some (.array paramsAddr [value, eachKey start key])) event) :
    InIteration platform machine last start ((key, child) :: rest) dataMap event := by
  cases event with
  | opcode vm programs pc opcode =>
    obtain ⟨inner, activation, present, -, params, own⟩ := entered
    exact ⟨inner, activation, 0, key, child, by rw [present, activations], rfl,
      ⟨paramsAddr, value, params⟩, fun none => ⟨addr, dataMap, own none, rfl⟩⟩
  | _ => trivial

theorem eachLoop_logs (enters : Enters rec) (options : Options μ) (last start : Nat)
    (dataMap : List (Str × Value μ)) (stale : Value μ) (left : List (Option Str × Child μ))
    (result : Str) (machine : Machine μ κ) :
    (eachLoop env rec options last start (some dataMap) stale left result).Logs Event.Uncaught
      (InIteration env.platform machine last start left dataMap) (fun _ => Same machine)
      (fun _ => True) machine := by
  induction left generalizing start dataMap stale result machine with
  | nil => exact Proc.logs_pure (.refl machine)
  | cons entry rest ih =>
    obtain ⟨key, child⟩ := entry
    unfold eachLoop
    apply Proc.logs_bind
    have first : Steady false (childValue stale child) := .of_kept env (.childValue stale child)
    have fresh : Steady false (allocate : Exec μ κ Nat) := .of_kept env .allocate
    refine Proc.logs_mono (first.silent (childValue_log _ _ machine))
      (fun _ logged => logged) ?_ (fun _ left => left)
    intro value first sameFirst
    apply Proc.logs_bind
    refine Proc.logs_mono (fresh.silent (allocate_log first))
      (fun _ logged => logged) ?_ (fun _ left => left)
    intro addr second sameSecond
    apply Proc.logs_bind
    refine Proc.logs_mono (fresh.silent (allocate_log second))
      (fun _ logged => logged) ?_ (fun _ left => left)
    intro paramsAddr third sameThird
    have same := (sameFirst.trans sameSecond).trans sameThird
    apply Proc.logs_bind
    refine Proc.logs_mono (enters _ _ _ _ third) ?_ ?_ (fun _ left => left)
    · exact fun event entered => inIteration_first same.activations entered
    · intro text after stayed
      have all := same.trans stayed
      refine Proc.logs_mono (ih (start + 1) _ value _ after) ?_ ?_ (fun _ left => left)
      · exact fun event inside => inside.later all.activations (find_eachData_parent _ _ _ _)
      · exact fun _ _ further => all.trans further

/-- The data that is copied has no entry of a name. -/
def LacksChild (hash : StringHash) (value : Value μ) (name : Str) : Prop :=
  ∀ entry ∈ children value, stringEq hash (entry.1.getD []) name = false

theorem copyLoop_lacks {platform : Platform} {name : Str} {quiet seen : Event μ κ → Prop}
    (stale : Value μ) (left : List (Option Str × Child μ)) (into : List (Str × Value μ))
    (machine : Machine μ κ) (absent : StrMap.find platform.hash into name = none)
    (lacks : ∀ entry ∈ left, stringEq platform.hash (entry.1.getD []) name = false) :
    (copyEntries.copyLoop platform stale left into : Exec μ κ _).Logs quiet seen
      (fun copied _ => StrMap.find platform.hash copied name = none) (fun _ => True) machine := by
  induction left generalizing stale into machine with
  | nil => exact Proc.logs_pure absent
  | cons entry rest ih =>
    unfold copyEntries.copyLoop
    apply Proc.logs_bind
    refine Proc.logs_mono (Proc.logs_any (childValue_log stale entry.2 machine))
      (fun _ logged => logged) ?_ (fun _ left => left)
    intro value middle _
    refine ih value _ middle ?_ fun other member => lacks other (List.mem_cons_of_mem _ member)
    rw [StrMap.find_update, lacks entry List.mem_cons_self]
    exact absent

theorem copyLoop_log {platform : Platform} (stale : Value μ) (left : List (Option Str × Child μ))
    (into : List (Str × Value μ)) (machine : Machine μ κ) :
    ((copyEntries.copyLoop platform stale left into : Exec μ κ _) machine).2 = [] := by
  induction left generalizing stale into machine with
  | nil => rfl
  | cons entry rest ih =>
    exact Proc.silent_bind (childValue_log stale entry.2 machine) fun value middle => ih value _ middle

theorem beginIteration_log (value : Value μ) (machine : Machine μ κ) :
    ((beginIteration value : Exec μ κ Unit) machine).2 = [] := by
  rcases Kept.iteration_cases (κ := κ) value with
    ⟨starts | starts, -⟩ | ⟨addr, entry, entries, rfl⟩
  · rw [starts]
    rfl
  · rw [starts]
    rfl
  · exact Proc.silent_bind rfl fun _ _ => Proc.silent_ite rfl rfl

theorem endIteration_log (value : Value μ) (machine : Machine μ κ) :
    ((endIteration value : Exec μ κ Unit) machine).2 = [] := by
  rcases Kept.iteration_cases (κ := κ) value with ⟨-, ends⟩ | ⟨addr, entry, entries, rfl⟩
  · rw [ends]
    rfl
  · rfl

/-- A copy lacks what its original lacks. -/
theorem copyEntries_lacks (env : Env μ κ) {platform : Platform} {value : Value μ} (name : Str)
    {seen : Event μ κ → Prop} (machine : Machine μ κ) :
    (copyEntries platform value [] : Exec μ κ _).Logs Event.Uncaught seen
      (fun copied after => Same machine after ∧
        (LacksChild platform.hash value name → StrMap.find platform.hash copied name = none))
      (fun _ => True) machine := by
  have log : ((copyEntries platform value [] : Exec μ κ _) machine).2 = [] :=
    Proc.silent_bind (beginIteration_log value machine) fun _ _ =>
      Proc.silent_bind (copyLoop_log _ _ _ _) fun _ _ =>
        Proc.silent_bind (endIteration_log value _) fun _ _ => rfl
  have steady : (copyEntries platform value [] : Exec μ κ _).Logs Event.Uncaught seen
      (fun _ => Same machine) (fun _ => True) machine :=
    (Steady.of_kept env (.copyEntries platform value [])).silent log
  by_cases lacks : LacksChild platform.hash value name
  case neg =>
    exact Proc.logs_mono steady (fun _ logged => logged)
      (fun _ _ same => ⟨same, fun lacking => absurd lacking lacks⟩) (fun _ left => left)
  have copied : (copyEntries platform value [] : Exec μ κ _).Logs Event.Uncaught seen
      (fun copied _ => StrMap.find platform.hash copied name = none) (fun _ => True) machine := by
    apply Proc.logs_bind
    refine Proc.logs_mono (Proc.logs_any (beginIteration_log value machine))
      (fun _ logged => logged) ?_ (fun _ left => left)
    intro _ begun _
    apply Proc.logs_bind
    refine Proc.logs_mono (copyLoop_lacks .null (children value) [] begun rfl lacks)
      (fun _ logged => logged) ?_ (fun _ left => left)
    intro copied middle absent
    apply Proc.logs_bind
    exact Proc.logs_mono (Proc.logs_any (endIteration_log value middle))
      (fun _ logged => logged) (fun _ _ _ => Proc.logs_pure absent) (fun _ left => left)
  exact Proc.logs_mono (Proc.logs_and copied steady) (fun _ both => both.1)
    (fun _ _ both => ⟨both.2, fun _ => both.1⟩) (fun _ left => left)

/-- The loop sets its data in a map that has a `_parent` only if the data around it has. -/
theorem eachDataMap_logs {options : Options μ} {data : Value μ} {seen : Event μ κ → Prop}
    (given : options.data = some data) (machine : Machine μ κ) :
    (eachDataMap env options).Logs Event.Uncaught seen
      (fun dataMap after => Same machine after ∧ ∃ entries, dataMap = some entries ∧
        (LacksChild env.platform.hash data (bytes "_parent") →
          StrMap.find env.platform.hash entries (bytes "_parent") = none))
      (fun _ => True) machine := by
  unfold eachDataMap
  rw [given]
  apply Proc.logs_ite
  · intro _
    apply Proc.logs_bind
    refine Proc.logs_mono (copyEntries_lacks env (bytes "_parent") machine) (fun _ logged => logged) ?_
      (fun _ left => left)
    exact fun copied after both => Proc.logs_pure ⟨both.1, copied, rfl, both.2⟩
  · exact fun _ => Proc.logs_pure ⟨.refl machine, [], rfl, fun _ => rfl⟩

theorem not_callable {context : Value μ} (collection : context.type = .map ∨ context.type = .array) :
    context.isCallable = false := by
  cases context with
  | helper | closure => rcases collection with same | same <;> cases same
  | _ => rfl

/-- What happens in a loop happens in one of its iterations. -/
theorem builtinEach_logs (enters : Enters rec) {context data : Value μ}
    {options : Options μ} (collection : context.type = .map ∨ context.type = .array)
    (nonempty : 0 < context.count) (given : options.data = some data) (rest : List (Value μ))
    (machine : Machine μ κ) :
    (builtinEach env rec (context :: rest) options).Logs Event.Uncaught
      (fun event => ∃ dataMap,
        (LacksChild env.platform.hash data (bytes "_parent") →
          StrMap.find env.platform.hash dataMap (bytes "_parent") = none) ∧
        InIteration env.platform machine (context.count.toNat - 1) 0 (children context) dataMap event)
      (fun _ => Same machine) (fun _ => True) machine := by
  unfold builtinEach resolveArgument
  dsimp only
  rw [not_callable collection, if_neg Bool.false_ne_true]
  apply Proc.logs_bind
  apply Proc.logs_pure
  rw [if_pos collection]
  apply Proc.logs_bind
  refine Proc.logs_mono (eachDataMap_logs given machine) (fun _ logged => logged) ?_
    (fun _ left => left)
  rintro _ first ⟨same, entries, rfl, lacks⟩
  rw [if_neg (by omega)]
  have loop : ∀ begun : Machine μ κ, begun.vm.data = first.vm.data →
      begun.activations = first.activations →
      (eachLoop env rec options (context.count.toNat - 1) 0 (some entries) .null (children context)
        []).Logs Event.Uncaught
        (fun event => ∃ dataMap,
          (LacksChild env.platform.hash data (bytes "_parent") →
            StrMap.find env.platform.hash dataMap (bytes "_parent") = none) ∧
          InIteration env.platform machine (context.count.toNat - 1) 0 (children context) dataMap
            event) (fun _ => Same begun) (fun _ => True) begun := by
    intro begun _ activations
    refine Proc.logs_mono (eachLoop_logs enters options _ 0 entries .null _ [] begun) ?_
      (fun _ _ stayed => stayed) (fun _ left => left)
    exact fun event inside => ⟨entries, lacks, inside.same (activations.trans same.activations)⟩
  refine Proc.logs_mono (same_iteration context loop
    (fun text => (.string text false : Value μ))) (fun _ logged => logged) ?_ (fun _ left => left)
  exact fun _ _ further => same.trans further

/-- The iteration of a loop over `context` that a program in progress is the body of. -/
structure Current (context : Value μ) (activation : Activation μ) (iteration : Iteration μ) :
    Prop where
  place : ∃ key child, (children context)[iteration.index]? = some (key, child) ∧
    iteration.key = eachKey iteration.index key
  last : iteration.last = context.count.toNat - 1
  params : ∃ addr value, activation.blockParams = some (.array addr [value, iteration.key])

/-- Neither null nor JSON -/
def Settled (value : Value μ) : Prop := value.realType ≠ .null ∧ value.realType ≠ .user

theorem Current.value_settled {context : Value μ} {activation : Activation μ}
    {iteration : Iteration μ} (current : Current context activation iteration) (name : EachName) :
    Settled (iteration.value name) := by
  obtain ⟨key, child, -, keyed⟩ := current.place
  unfold Settled
  cases name with
  | key =>
    change iteration.key.realType ≠ .null ∧ iteration.key.realType ≠ .user
    rw [keyed]
    cases key <;> simp [eachKey, Value.realType]
  | index => simp [Iteration.value, Value.realType]
  | first => cases h : iteration.index == 0 <;> simp [Iteration.value, h, Value.realType]
  | last => cases h : iteration.index == iteration.last <;> simp [Iteration.value, h, Value.realType]

/-- No key of a map occurs twice. -/
def DistinctKeys (context : Value μ) : Prop :=
  ∀ (left right : Nat) key child other, (children context)[left]? = some (some key, child) →
    (children context)[right]? = some (some key, other) → left = right

/-- The data with which an opcode is executed inside loops, of which each runs in the body of
the one before; the innermost comes first, and the outermost runs with the data `base`. -/
inductive Nest (env : Env μ κ) (base : Value μ) : List (Iteration μ) → Value μ → Prop where
  | outside : Nest env base [] base
  | inside {machine : Machine μ κ} (outer : Nest env base loops machine.vm.data)
      (given : options.data = some machine.vm.data)
      (collection : context.type = .map ∨ context.type = .array) (nonempty : 0 < context.count)
      (distinct : DistinctKeys context)
      (uncaught : ∀ event ∈ (builtinEach env (level env fuel) (context :: rest) options machine).2,
        event.Uncaught)
      (executed : .opcode vm (activation :: machine.activations) pc opcode ∈
        (builtinEach env (level env fuel) (context :: rest) options machine).2)
      (current : Current context activation iteration) :
      Nest env base (iteration :: loops) vm.data

/-- An iteration is known by its key or index. -/
theorem eachKey_inj {context : Value μ} (distinct : DistinctKeys context)
    (first : (children context)[left]? = some (leftKey, child))
    (second : (children context)[right]? = some (rightKey, other))
    (same : (eachKey left leftKey : Value μ) = eachKey right rightKey) : left = right := by
  cases leftKey with
  | none =>
    cases rightKey with
    | none =>
      injection same with index
      exact Int.ofNat_inj.mp index
    | some key => cases same
  | some key =>
    cases rightKey with
    | none => cases same
    | some otherKey =>
      injection same with keys
      subst keys
      exact distinct left right key child other first second

theorem lacksChild_map {hash : StringHash} {entries : List (Str × Value μ)} :
    LacksChild hash (.map addr entries) name ↔ StrMap.find hash entries name = none := by
  rw [StrMap.find, Option.map_eq_none_iff, List.find?_eq_none]
  constructor
  · intro lacks entry member
    simpa using lacks (some entry.1, .value entry.2) (List.mem_map.mpr ⟨entry, member, rfl⟩)
  · intro absent entry member
    obtain ⟨stored, present, rfl⟩ := List.mem_map.mp member
    simpa using absent stored present

/-- In a nest of loops the data is that of the current iteration of the innermost. -/
theorem Nest.frame {data : Value μ} (nest : Nest env base (iteration :: loops) data) : ∃ outer addr before,
    Nest env base loops outer ∧
    data = .map addr
      (eachData env.platform before iteration.index iteration.last iteration.key) ∧
    (LacksChild env.platform.hash outer (bytes "_parent") →
      StrMap.find env.platform.hash before (bytes "_parent") = none) ∧
    ∀ name, Settled (iteration.value name) := by
  cases nest with
  | inside outer given collection nonempty distinct uncaught executed current =>
    have ran := (builtinEach_logs (level_enters env _) collection nonempty given _ _
      uncaught).1 _ executed
    obtain ⟨dataMap, lacks, inner, found, position, key, child, programs, entry, params, own⟩ := ran
    have empty : inner = [] := by
      have lengths := congrArg List.length programs
      simp only [List.length_cons, List.length_append] at lengths
      exact List.length_eq_zero_iff.mp (by omega)
    subst empty
    obtain rfl := (List.cons.inj programs).1
    obtain ⟨addr, before, data, parent⟩ := own rfl
    obtain ⟨currentKey, currentChild, place, keyed⟩ := current.place
    rw [Nat.zero_add] at params data
    have sameKey : (eachKey position key : Value μ) = eachKey iteration.index currentKey := by
      obtain ⟨_, _, ranParams⟩ := params
      obtain ⟨_, _, currentParams⟩ := current.params
      rw [ranParams] at currentParams
      have items := (Value.array.inj (Option.some.inj currentParams)).2
      exact (List.cons.inj (List.cons.inj items).2).1.trans keyed
    have here := eachKey_inj distinct entry place sameKey
    subst here
    refine ⟨_, addr, before, outer, ?_, fun lacking => parent.trans (lacks lacking),
      current.value_settled⟩
    rw [data, current.last, sameKey, keyed]

theorem Nest.settled {data : Value μ} {k : Nat} (nest : Nest env base loops data)
    (place : loops[k]? = some iteration) (name : EachName) : Settled (iteration.value name) := by
  induction loops generalizing data k with
  | nil => cases place
  | cons innermost rest ih =>
    obtain ⟨outer, addr, before, inner, -, -, settled⟩ := nest.frame
    cases k with
    | zero =>
      cases place
      exact settled name
    | succ k => exact ih inner place

/-- No loop adds a `_parent`. -/
theorem Nest.lacks {data : Value μ} (nest : Nest env base loops data)
    (lacks : LacksChild env.platform.hash base (bytes "_parent")) :
    LacksChild env.platform.hash data (bytes "_parent") := by
  induction loops generalizing data with
  | nil =>
    cases nest
    exact lacks
  | cons iteration rest ih =>
    obtain ⟨outer, addr, before, inner, rfl, absent, -⟩ := nest.frame
    apply lacksChild_map.mpr
    rw [find_eachData_parent]
    exact absent (ih inner)

/-- A data path of one name and so many parents, started from some data. -/
def lookupFrom (env : Env μ κ) (flags : Flags) (loc : LocInfo) (terminal : Bool) (name : Str)
    (depth : Nat) (data : Value μ) : Exec μ κ Unit := do
  let isStrict := flags.has Flag.strict || flags.has Flag.assumeObjects
  let requireTerminal := flags.has Flag.strict && terminal
  let data ← parentData env.platform depth data
  match ← firstData env data name with
  | some value =>
    match ← laterData env (isStrict || requireTerminal) [] value with
    | some value =>
      if value.realType = .null ∧ requireTerminal then raise (notDefined name loc)
      else push StackField.stack value
    | none => raise (notDefined name loc)
  | none =>
    if flags.has Flag.assumeObjects || requireTerminal then raise (notDefined name loc)
    else push StackField.stack .null

theorem acceptLookupData_from {opcode : Opcode} {machine : Machine μ κ} {depth : Int}
    (op1 : opcode.op1 = .long depth) (op2 : opcode.op2 = .array [name])
    (op3 : opcode.op3.boolval? = some terminal) :
    acceptLookupData env opcode machine =
      lookupFrom env machine.vm.flags opcode.loc terminal name depth.toNat machine.vm.data
        machine := by
  unfold acceptLookupData
  rw [op1, op2, op3]
  rfl

/-- The procedure returns with the value on the stack. -/
def Yields (proc : Exec μ κ Unit) (machine : Machine μ κ) (value : Value μ) : Prop :=
  ∃ after, (proc machine).1 = .ok () after ∧
    (after.vm.stackSet.bind fun stackSet => stackSet.stack.top) = some value

theorem yields_push {machine : Machine μ κ} {stackSet : Stacks μ} {pushed value : Value μ}
    (present : machine.vm.stackSet = some stackSet) (room : stackSet.stack.count < Stack.capacity) :
    Yields (push StackField.stack pushed) machine value ↔ pushed = value := by
  let grown : Stacks μ :=
    { stackSet with stack := { stackSet.stack with v := pushed :: stackSet.stack.v } }
  have ran : ((push StackField.stack pushed : Exec μ κ Unit) machine).1 =
      .ok () { machine with vm := { machine.vm with stackSet := some grown } } := by
    have found : (stackOf StackField.stack : Exec μ κ _) machine = (.ok stackSet.stack machine, []) := by
      change Proc.andThen (nonnull machine.vm.stackSet) _ machine = _
      rw [present]
      rfl
    have pushes : stackSet.stack.push pushed =
        some { stackSet.stack with v := pushed :: stackSet.stack.v } := if_pos room
    change (Proc.andThen (stackOf StackField.stack) _ machine).1 = _
    unfold Proc.andThen
    rw [found]
    dsimp only
    rw [pushes]
    have changed : (machine.vm.stackSet.map fun found => StackField.stack.set found grown.stack) =
        some grown := by
      rw [present]
      rfl
    rw [← changed]
    rfl
  constructor
  · rintro ⟨after, returned, top⟩
    rw [ran] at returned
    cases returned
    exact Option.some.inj top
  · rintro rfl
    exact ⟨_, ran, rfl⟩

/-- The lookup from a map, before anything is pushed. -/
theorem lookupFrom_map {machine : Machine μ κ} {entries : List (Str × Value μ)}
    {flags : Flags} {loc : LocInfo} {terminal : Bool} {name : Str} {value : Value μ}
    (found : StrMap.find env.platform.hash entries name = some value)
    (notNull : value.realType ≠ .null) :
    lookupFrom env flags loc terminal name 0 (.map addr entries) machine =
      push StackField.stack value machine := by
  have first : (firstData env (.map addr entries) name : Exec μ κ _) = pure (some value) := by
    unfold firstData
    dsimp only [mapFind]
    rw [found]
    rfl
  unfold lookupFrom
  change (firstData env (.map addr entries) name >>= _ : Exec μ κ Unit) machine = _
  rw [first]
  change (if value.realType = .null ∧ _ then _ else push StackField.stack value) machine = _
  rw [if_neg fun both => notNull both.1]

/-- A step to a parent that is not there leads nowhere. -/
theorem lookupFrom_succ {machine : Machine μ κ} {entries : List (Str × Value μ)} {depth : Nat} :
    lookupFrom env flags loc terminal name (depth + 1) (.map addr entries) machine =
      lookupFrom env flags loc terminal name depth
        ((StrMap.find env.platform.hash entries (bytes "_parent")).getD (.map addr entries))
        machine := rfl

theorem lookupFrom_orphan {machine : Machine μ κ} {entries : List (Str × Value μ)}
    (absent : StrMap.find env.platform.hash entries (bytes "_parent") = none) (depth : Nat) :
    lookupFrom env flags loc terminal name depth (.map addr entries) machine =
      lookupFrom env flags loc terminal name 0 (.map addr entries) machine := by
  induction depth with
  | zero => rfl
  | succ depth ih =>
    rw [lookupFrom_succ, absent]
    exact ih

/-- `handlebars_map_find` on the data, when it is a map. -/
def dataEntry (platform : Platform) (data : Value μ) (name : Str) : Option (Value μ) :=
  match data with
  | .map _ entries => StrMap.find platform.hash entries name
  | _ => none

/-- What a path finds in the data of the innermost loop. -/
theorem lookupFrom_frame {machine : Machine μ κ} {data : Value μ} {stackSet : Stacks μ}
    (names : env.platform.hash (bytes "index") ≠ env.platform.hash (bytes "first"))
    (nest : Nest env base (innermost :: loops) data) (present : machine.vm.stackSet = some stackSet)
    (room : stackSet.stack.count < Stack.capacity) (name : EachName) (value : Value μ) :
    Yields (lookupFrom env flags loc terminal name.text 0 data) machine value ↔
      innermost.value name = value := by
  obtain ⟨outer, addr, before, -, rfl, -, settled⟩ := nest.frame
  have found := find_eachData names before innermost name
  unfold Yields
  rw [lookupFrom_map found (settled name).1]
  exact yields_push present room

/-- A path with parents finds it too, where the data has none. -/
theorem lookupFrom_orphan_frame {machine : Machine μ κ} {data : Value μ} {stackSet : Stacks μ}
    (names : env.platform.hash (bytes "index") ≠ env.platform.hash (bytes "first"))
    (nest : Nest env base (innermost :: loops) data) (present : machine.vm.stackSet = some stackSet)
    (room : stackSet.stack.count < Stack.capacity)
    (orphan : dataEntry env.platform data (bytes "_parent") = none) (depth : Nat)
    (name : EachName) (value : Value μ) :
    Yields (lookupFrom env flags loc terminal name.text depth data) machine value ↔
      innermost.value name = value := by
  have own : Yields (lookupFrom env flags loc terminal name.text 0 data) machine value ↔
      innermost.value name = value := lookupFrom_frame names nest present room name value
  obtain ⟨outer, addr, before, -, rfl, -⟩ := nest.frame
  unfold Yields at own ⊢
  rw [lookupFrom_orphan orphan]
  exact own

theorem Nest.orphan {data : Value μ} (nest : Nest env base (innermost :: loops) data)
    (lacks : LacksChild env.platform.hash base (bytes "_parent")) :
    dataEntry env.platform data (bytes "_parent") = none := by
  have absent := nest.lacks lacks
  obtain ⟨outer, addr, before, -, rfl, -⟩ := nest.frame
  exact lacksChild_map.mp absent

theorem acceptLookupData_yields {machine : Machine μ κ} {opcode : Opcode} {k : Nat}
    (op1 : opcode.op1 = .long k) (op2 : opcode.op2 = .array [name])
    (op3 : opcode.op3.boolval? = some terminal) (value : Value μ) :
    Yields (acceptLookupData env opcode) machine value ↔
      Yields (lookupFrom env machine.vm.flags opcode.loc terminal name k machine.vm.data) machine
        value := by
  unfold Yields
  rw [acceptLookupData_from op1 op2 op3, Int.toNat_natCast]

section Ancestors

/-- The data so many `_parent`s outwards; data without one is its own. -/
def outwards (platform : Platform) : Nat → Value μ → Value μ
  | 0, data => data.anywhere
  | depth + 1, data =>
    outwards platform depth ((data.member platform (bytes "_parent")).getD data)

theorem outwards_anywhere (platform : Platform) (depth : Nat) (data : Value μ) :
    outwards platform depth data.anywhere = outwards platform depth data := by
  induction depth generalizing data with
  | zero => exact Value.anywhere_anywhere data
  | succ depth ih =>
    rw [outwards, outwards, Value.member_anywhere]
    cases data.member platform (bytes "_parent") with
    | none => exact ih data
    | some parent => rfl

/-- The steps to parents lead where the data says. -/
theorem parentData_reads (platform : Platform) (depth : Nat) (data : Value μ) :
    Reads (parentData platform depth data : Exec μ κ _) fun found =>
      found.anywhere = outwards platform depth data := by
  induction depth generalizing data with
  | zero => exact reads_pure rfl
  | succ depth ih =>
    rw [parentData, outwards]
    refine reads_bind (mapFind_reads data (bytes "_parent")) fun found same => ?_
    rw [← same]
    cases found with
    | none => exact ih data
    | some parent =>
      rw [Option.map_some, Option.getD_some, Option.getD_some, outwards_anywhere]
      exact ih parent

/-- What a loop sets is nowhere in JSON. -/
theorem Settled.anywhere_eq_iff {found value : Value μ} (settled : Settled value) :
    found.anywhere = value ↔ found = value := by
  cases found with
  | user addr json =>
    constructor
    · rintro rfl
      exact absurd rfl settled.2
    · rintro rfl
      exact absurd rfl settled.2
  | _ => rfl

theorem raise_returns {error : Error} {machine after : Machine μ κ} {value : α}
    (returned : (raise error machine).1 = .ok value after) : False := by
  unfold raise writeVm readVm at returned
  rw [Proc.bind_write, Proc.bind_read] at returned
  split at returned <;> cases returned

/-- A data path finds a value exactly if the data has it where the path leads. -/
theorem lookupFrom_member {machine : Machine μ κ} {stackSet : Stacks μ} {data value : Value μ}
    (present : machine.vm.stackSet = some stackSet) (room : stackSet.stack.count < Stack.capacity)
    (settled : Settled value) (name : EachName) (depth : Nat) :
    Yields (lookupFrom env flags loc terminal name.text depth data) machine value ↔
      (outwards env.platform depth data).member env.platform name.text = some value := by
  have search : Reads (parentData env.platform depth data >>= fun above =>
      firstData env above name.text) fun found => found.map Value.anywhere =
        (outwards env.platform depth data).member env.platform name.text := by
    refine reads_bind (parentData_reads env.platform depth data) fun above there => ?_
    rw [← there, Value.member_anywhere]
    refine reads_bind (mapFind_reads above name.text) fun found same => ?_
    cases found with
    | some found => exact reads_pure same
    | none => cases name <;> exact reads_pure same
  obtain ⟨found, after, ran, unmoved, same⟩ : ∃ found after,
      (parentData env.platform depth data >>= fun above => firstData env above name.text) machine =
        (.ok found after, []) ∧ after.vm.stackSet = some stackSet ∧
      found.map Value.anywhere =
        (outwards env.platform depth data).member env.platform name.text := by
    obtain ⟨found, alloc, ran, same⟩ := search machine
    exact ⟨found, _, ran, present, same⟩
  unfold Yields lookupFrom
  rw [← bind_assoc, Proc.bind_ran ran, ← same]
  cases found with
  | none =>
    refine iff_of_false ?_ (by simp)
    dsimp only
    split
    · rintro ⟨last, raised, -⟩
      exact raise_returns raised
    · intro yields
      exact settled.1 (congrArg Value.realType ((yields_push unmoved room).mp yields)).symm
  | some found =>
    rw [Option.map_some, Option.some.injEq, settled.anywhere_eq_iff]
    simp only [laterData, pure_bind]
    split
    · rename_i isNull
      constructor
      · rintro ⟨last, raised, -⟩
        exact (raise_returns raised).elim
      · rintro rfl
        exact absurd isNull.1 settled.1
    · exact yields_push unmoved room

end Ancestors

/-- A path with `k` parents finds the value of the `k`-th loop outwards exactly when it has no
parents, or that value is also the innermost loop's, unless the data around the loops has a
`_parent`: then the rest of the path must lead from there to data with that value. -/
theorem each_data_path {machine : Machine μ κ} {stackSet : Stacks μ} {opcode : Opcode} {k : Nat}
    (names : env.platform.hash (bytes "index") ≠ env.platform.hash (bytes "first"))
    (nest : Nest env base (innermost :: loops) machine.vm.data)
    (place : (innermost :: loops)[k]? = some iteration)
    (present : machine.vm.stackSet = some stackSet) (room : stackSet.stack.count < Stack.capacity)
    (name : EachName) (op1 : opcode.op1 = .long k) (op2 : opcode.op2 = .array [name.text])
    (op3 : opcode.op3.boolval? = some terminal) :
    (Yields (acceptLookupData env opcode) machine (iteration.value name) ↔
      k = 0 ∨ match dataEntry env.platform machine.vm.data (bytes "_parent") with
        | none => innermost.value name = iteration.value name
        | some parent => 0 < k ∧ (outwards env.platform (k - 1) parent).member env.platform
            name.text = some (iteration.value name)) ∧
    (LacksChild env.platform.hash base (bytes "_parent") →
      dataEntry env.platform machine.vm.data (bytes "_parent") = none) := by
  refine ⟨?_, nest.orphan⟩
  rw [acceptLookupData_yields op1 op2 op3]
  cases k with
  | zero =>
    obtain rfl := Option.some.inj place
    simp [lookupFrom_frame names nest present room]
  | succ k =>
    cases found : dataEntry env.platform machine.vm.data (bytes "_parent") with
    | none => simp [lookupFrom_orphan_frame names nest present room found]
    | some parent =>
      obtain ⟨outer, addr, before, -, data, -⟩ := nest.frame
      have settled : Settled (iteration.value name) := nest.settled place name
      rw [data] at found ⊢
      have below : Yields (lookupFrom env machine.vm.flags opcode.loc terminal name.text k parent)
          machine (iteration.value name) ↔ _ := lookupFrom_member present room settled name k
      unfold Yields at below ⊢
      rw [lookupFrom_succ, show StrMap.find _ _ _ = some parent from found]
      simpa using below

section Pair

/-- A module of one program, which pushes a map. -/
def pushingModule : Module where
  hash := 0
  version := handlebarsVersion
  addr := 0
  size := 0
  ts := 0
  flags := 0
  programCount := 1
  programsAddr := 0
  programs := [⟨0, 2, 0⟩]
  opcodeCount := 2
  opcodesAddr := 0
  opcodes := [⟨.emptyHash, .null false, .null false, .null false, .null false, LocInfo.zero⟩,
    ⟨.ret, .null false, .null false, .null false, .null false, LocInfo.zero⟩]
  dataOffset := 0

/-- Strings are told apart by their first bytes. -/
def pairEnv : Env Unit Unit where
  platform :=
    { hash := fun text => (text.headD 0).toUInt32
      numberLong := fun _ => none
      scanLong10 := fun _ => 0
      formatDouble := fun _ => bytes "0" }
  module := fun _ => pushingModule
  compileTemplate := fun _ _ _ => none
  preprocessDelimiters := fun text _ _ => some text
  userHelper := fun _ _ _ => .ret .null
  cacheFind := fun cache _ => (.ok none, cache)
  cacheAdd := fun cache _ _ => .ok cache
  cacheRelease := fun cache _ _ => cache

/-- The VM between two programs. -/
def pairMachine (data : Value Unit) (alloc : Nat) (cell : Option (ContextCell Unit)) :
    Machine Unit Unit where
  vm :=
    { cache := none
      module := some ()
      depth := 0
      flags := 0
      buffer := none
      data := data
      helpers := .null
      partials := .null
      lastHelper := none
      lastContext := cell
      stackSet := some .empty
      logFunc := none
      delimOpen := none
      delimClose := none
      jmp := true
      error := none
      inIteration := []
      alloc := alloc }
  activations := []

/-- A loop over an array of two. -/
def pairContext : Value Unit := .array 0 [.boolean true, .boolean false]

def pairOptions (data : Value Unit) : Options Unit where
  name := some (bytes "each")
  hash := none
  scope := .null
  data := some data
  inverse := -1
  program := 0

theorem pairContext_distinct : DistinctKeys pairContext := by
  intro left right key child other first
  match left, first with
  | 0, first => cases first
  | 1, first => cases first

def pairActivation (addr : Nat) (value : Value Unit) (index : Nat) : Activation Unit where
  module := ()
  program := 0
  context := value
  blockParams := some (.array addr [value, .integer index])
  heights := (Stacks.empty : Stacks Unit).count

/-- What an iteration of the loop logs. -/
def pairEvent (vm : Vm Unit Unit) (addr : Nat) (value : Value Unit) (index : Nat) :
    Event Unit Unit :=
  .opcode vm [pairActivation addr value index] 0 (opcodeCtor .emptyHash)

theorem pairBody_ran (before data context params : Value Unit) (alloc : Nat)
    (cell : Option (ContextCell Unit)) : ∃ vm later next,
    executeProgramEx pairEnv (level pairEnv 0) 0 context (some data) (some params)
      (pairMachine before alloc cell) =
      (.ok [] (pairMachine before later next),
        [.opcode vm [⟨(), 0, context, some params, (Stacks.empty : Stacks Unit).count⟩] 0
          (opcodeCtor .emptyHash)]) :=
  ⟨_, _, _, rfl⟩

theorem pairLoop_cons (data value : Value Unit) (rest : List (Option Str × Child Unit))
    (i last : Nat) (entries : List (Str × Value Unit)) (stale : Value Unit) (alloc : Nat)
    (cell : Option (ContextCell Unit)) : ∃ vm addr frame later next,
    (eachLoop pairEnv (level pairEnv 1) (pairOptions data) last i (some entries) stale
      ((none, .value value) :: rest) [] (pairMachine data alloc cell)).2 =
      pairEvent vm addr value i ::
        (eachLoop pairEnv (level pairEnv 1) (pairOptions data) last (i + 1) (some frame) value
          rest [] (pairMachine data later next)).2 := by
  let addr := (pairMachine data alloc cell).vm.freshAddr
  let params := (pairMachine data (addr + 1) cell).vm.freshAddr
  let frame := eachData pairEnv.platform entries i last (.integer i)
  obtain ⟨vm, later, next, ran⟩ := pairBody_ran data (.map addr frame) value
    (.array params [value, .integer i]) (params + 1) cell
  refine ⟨vm, params, frame, later, next, ?_⟩
  change ((executeProgramEx pairEnv (level pairEnv 0) 0 value (some (.map addr frame))
    (some (.array params [value, .integer i])) >>= fun text =>
      eachLoop pairEnv (level pairEnv 1) (pairOptions data) last (i + 1) (some frame) value rest
        ([] ++ text)) (pairMachine data (params + 1) cell)).2 = _
  rw [Proc.bind_logged ran]
  rfl

theorem pairLoop_log (data : Value Unit) (entries : List (Str × Value Unit)) (alloc : Nat)
    (cell : Option (ContextCell Unit)) : ∃ first firstAddr second secondAddr,
    (eachLoop pairEnv (level pairEnv 1) (pairOptions data) 1 0 (some entries) .null
      (children pairContext) [] (pairMachine data alloc cell)).2 =
      [pairEvent first firstAddr (.boolean true) 0,
        pairEvent second secondAddr (.boolean false) 1] := by
  obtain ⟨first, firstAddr, frame, later, next, one⟩ := pairLoop_cons data (.boolean true)
    [(none, .value (.boolean false))] 0 1 entries .null alloc cell
  obtain ⟨second, secondAddr, _, _, _, two⟩ :=
    pairLoop_cons data (.boolean false) [] 1 1 frame (.boolean true) later next
  refine ⟨first, firstAddr, second, secondAddr, ?_⟩
  change (eachLoop pairEnv _ _ _ _ _ _ [(none, .value (.boolean true)),
    (none, .value (.boolean false))] _ _).2 = _
  rw [one, two]
  rfl

theorem copyLoop_map (entries into : List (Str × Value Unit)) (stale : Value Unit)
    (machine : Machine Unit Unit) : ∃ copied,
    copyEntries.copyLoop pairEnv.platform stale
      (entries.map fun entry => (some entry.1, .value entry.2)) into machine =
      (.ok copied machine, []) := by
  induction entries generalizing into stale with
  | nil => exact ⟨into, rfl⟩
  | cons entry rest ih =>
    obtain ⟨copied, ran⟩ := ih (StrMap.update pairEnv.platform.hash into entry.1 entry.2) entry.2
    exact ⟨copied, ran⟩

theorem pairDataMap_ran {data : Value Unit}
    (plain : data = .null ∨ ∃ addr entries, data = .map addr entries) : ∃ copied,
    eachDataMap pairEnv (pairOptions data) (pairMachine data 0 none) =
      (.ok (some copied) (pairMachine data 0 none), []) := by
  obtain rfl | ⟨addr, entries, rfl⟩ := plain
  · exact ⟨[], rfl⟩
  · cases entries with
    | nil => exact ⟨[], rfl⟩
    | cons entry rest =>
      let begun := pairMachine (.map addr (entry :: rest)) 0 none
      obtain ⟨copied, ran⟩ := copyLoop_map (entry :: rest) [] .null
        { begun with vm := { begun.vm with inIteration := [addr] } }
      refine ⟨copied, ?_⟩
      change copyEntries.copyLoop _ _ (children (.map addr (entry :: rest))) _ _ = _ at ran
      change Proc.andThen (Proc.andThen (copyEntries.copyLoop pairEnv.platform .null _ [])
        fun copied => Proc.andThen (endIteration (.map addr (entry :: rest))) fun _ =>
          Proc.ret copied) (fun copied => Proc.ret (some copied))
        { begun with vm := { begun.vm with inIteration := [addr] } } = _
      unfold Proc.andThen
      rw [ran]
      change (Outcome.ok (some copied)
        { begun with vm := { begun.vm with inIteration := [addr].erase addr } }, []) = _
      rw [List.erase_cons_head]
      rfl

/-- What the whole of `#each` logs. -/
theorem pairEach_log {data : Value Unit}
    (plain : data = .null ∨ ∃ addr entries, data = .map addr entries) :
    ∃ first firstAddr second secondAddr,
    (builtinEach pairEnv (level pairEnv 1) [pairContext] (pairOptions data)
      (pairMachine data 0 none)).2 =
      [pairEvent first firstAddr (.boolean true) 0,
        pairEvent second secondAddr (.boolean false) 1] := by
  obtain ⟨copied, ran⟩ := pairDataMap_ran plain
  obtain ⟨first, firstAddr, second, secondAddr, log⟩ := pairLoop_log data copied 0 none
  refine ⟨first, firstAddr, second, secondAddr, ?_⟩
  let finish : Str → Exec Unit Unit (Value Unit) := fun text => Proc.ret (.string text false)
  let loop : Option (List (Str × Value Unit)) → Exec Unit Unit Str := fun dataMap =>
    eachLoop pairEnv (level pairEnv 1) (pairOptions data) 1 0 dataMap .null (children pairContext) []
  have inner : (Proc.andThen (loop (some copied)) finish (pairMachine data 0 none)).2 = _ :=
    (Proc.andThen_log fun _ _ => rfl).trans log
  change ((eachDataMap pairEnv (pairOptions data) >>= fun dataMap =>
    Proc.andThen (loop dataMap) finish) (pairMachine data 0 none)).2 = _
  rw [Proc.bind_ran ran]
  exact inner

/-- A loop inside others, in an iteration that it logs. -/
theorem pairNest_cons {loops : List (Iteration Unit)} {data value : Value Unit}
    {vm : Vm Unit Unit} {addr index : Nat} (outer : Nest pairEnv .null loops data)
    (plain : data = .null ∨ ∃ addr entries, data = .map addr entries)
    (child : (children pairContext)[index]? = some (none, .value value))
    (logged : pairEvent vm addr value index ∈
      (builtinEach pairEnv (level pairEnv 1) [pairContext] (pairOptions data)
        (pairMachine data 0 none)).2) :
    Nest pairEnv .null (⟨index, 1, .integer index⟩ :: loops) vm.data := by
  have uncaught : ∀ event ∈ (builtinEach pairEnv (level pairEnv 1) [pairContext] (pairOptions data)
      (pairMachine data 0 none)).2, event.Uncaught := by
    obtain ⟨first, firstAddr, second, secondAddr, log⟩ := pairEach_log plain
    intro event member
    rw [log] at member
    rcases List.mem_pair.mp member with rfl | rfl <;> trivial
  refine Nest.inside ?_ ?_ (.inr rfl) (by decide) pairContext_distinct uncaught logged ?_
  · exact outer
  · rfl
  · exact ⟨⟨none, .value value, child, rfl⟩, rfl, addr, value, rfl⟩

/-- Two loops, the outer one in its second iteration and the inner one in its first. -/
theorem pairNest : ∃ data : Value Unit,
    Nest pairEnv .null [⟨0, 1, .integer 0⟩, ⟨1, 1, .integer 1⟩] data := by
  obtain ⟨_, _, second, secondAddr, outerLog⟩ := pairEach_log (.inl (Eq.refl (.null : Value Unit)))
  have last : pairEvent second secondAddr (.boolean false) 1 ∈
      (builtinEach pairEnv (level pairEnv 1) [pairContext] (pairOptions .null)
        (pairMachine .null 0 none)).2 := by
    rw [outerLog]
    exact List.mem_cons_of_mem _ List.mem_cons_self
  have outer := pairNest_cons .outside (.inl rfl) rfl last
  obtain ⟨_, addr, before, -, data, -⟩ := outer.frame
  obtain ⟨first, firstAddr, _, _, innerLog⟩ := pairEach_log (.inr ⟨addr, _, data⟩)
  have head : pairEvent first firstAddr (.boolean true) 0 ∈
      (builtinEach pairEnv (level pairEnv 1) [pairContext] (pairOptions second.data)
        (pairMachine second.data 0 none)).2 := by
    rw [innerLog]
    exact List.mem_cons_self
  exact ⟨first.data, pairNest_cons outer (.inr ⟨addr, _, data⟩) rfl head⟩

/-- A path to `index` with so many parents. -/
def indexPath (parents : Nat) : Opcode :=
  { opcodeCtor .lookupData with op1 := .long parents, op2 := .array [bytes "index"] }

theorem pairEnv_names :
    pairEnv.platform.hash (bytes "index") ≠ pairEnv.platform.hash (bytes "first") := by
  decide

/-- `@index` is the index of the inner loop. -/
theorem each_data_path_own : ∃ data : Value Unit,
    Nest pairEnv .null [⟨0, 1, .integer 0⟩, ⟨1, 1, .integer 1⟩] data ∧
    Yields (acceptLookupData pairEnv (indexPath 0)) (pairMachine data 0 none) (.integer 0) := by
  obtain ⟨data, nest⟩ := pairNest
  have nested : Nest pairEnv .null _ (pairMachine data 0 none).vm.data := nest
  exact ⟨data, nest, (each_data_path pairEnv_names nested rfl rfl (by decide) .index rfl rfl
    rfl).1.mpr (.inl rfl)⟩

/-- `@../index` is not the index of the outer loop, but again that of the inner one. -/
theorem each_data_path_inner : ∃ data : Value Unit,
    Nest pairEnv .null [⟨0, 1, .integer 0⟩, ⟨1, 1, .integer 1⟩] data ∧
    ¬ Yields (acceptLookupData pairEnv (indexPath 1)) (pairMachine data 0 none) (.integer 1) ∧
    Yields (acceptLookupData pairEnv (indexPath 1)) (pairMachine data 0 none) (.integer 0) := by
  obtain ⟨data, nest⟩ := pairNest
  have orphan := nest.orphan fun _ none => nomatch none
  have same : ∀ value, Yields (acceptLookupData pairEnv (indexPath 1))
      (pairMachine data 0 none) value ↔ (.integer 0 : Value Unit) = value := by
    intro value
    rw [acceptLookupData_yields rfl rfl rfl]
    exact lookupFrom_orphan_frame pairEnv_names nest rfl (by decide) orphan 1 .index value
  refine ⟨data, nest, ?_, (same _).mpr rfl⟩
  rw [same]
  nofun

end Pair

end Exec

end HandlebarsC
