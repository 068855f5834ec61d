import HandlebarsC.Compiler.Model
import HandlebarsC.Map.Operations
import HandlebarsC.Vm.Each
import HandlebarsC.Vm.Json

/-!
Loops over the entries of a map: the iterator of `handlebars_value.c` on a `handlebars_map`,
and the loops of the VM that it runs in.
-/

namespace HandlebarsC

open Effect

namespace Map

variable {α : Type} {hash : StringHash} {map : Map α}

@[simp] theorem setIsInIteration_isSparse (flag : Bool) :
    (map.setIsInIteration flag).isSparse = map.isSparse := rfl

@[simp] theorem setIsInIteration_pairs (flag : Bool) :
    (map.setIsInIteration flag).pairs = map.pairs := rfl

theorem setIsInIteration_compact (flag : Bool) :
    (map.setIsInIteration flag).sparseArrayCompact =
      map.sparseArrayCompact.setIsInIteration flag := by
  unfold sparseArrayCompact
  change (if map.i = map.vecOffset then _ else _) = _
  split <;> rfl

theorem length_pairs (valid : Valid hash map) : map.pairs.length = map.count := by
  rw [pairs, List.length_map]
  exact valid.counted.symm

/-- Compaction does what it is for. -/
def Compacting (hash : StringHash) (map : Map α) : Prop :=
  Packed hash map map.sparseArrayCompact

theorem Compacting.getKvAtIndex (compacting : Compacting hash map) (valid : Valid hash map)
    (flag : Bool) (index : Nat) (pair : Str × α) (present : map.pairs[index]? = some pair) :
    (map.sparseArrayCompact.setIsInIteration flag).getKvAtIndex index = .ok (some pair) := by
  have bound : index < map.count := by
    rw [← length_pairs valid]
    exact (List.getElem?_eq_some_iff.mp present).1
  have inside : ¬index ≥ (map.sparseArrayCompact.setIsInIteration flag).vecOffset := by
    change ¬index ≥ map.sparseArrayCompact.vecOffset
    rw [compacting.vecOffset]
    omega
  rw [Map.getKvAtIndex, if_neg inside]
  change Except.ok ((map.sparseArrayCompact.entryAt index).map _) = _
  rw [compacting.packed index bound]
  rw [pairs, List.getElem?_map] at present
  exact congrArg Except.ok present

theorem sparseArrayCompact_count : map.sparseArrayCompact.count = map.count := by
  unfold sparseArrayCompact
  split <;> rfl

end Map

namespace Exec

variable {μ κ α β : Type} {hash : StringHash}

/-- The maps in iteration, after the flag of one was written. -/
def flagged (addr : Nat) (isInIteration : Bool) (inIteration : List Nat) : List Nat :=
  if isInIteration then
    if inIteration.contains addr then inIteration else addr :: inIteration
  else inIteration.erase addr

/-- Calls a function of `handlebars_map.c` on the map at an address, whose flag is in the VM. -/
def onMap (addr : Nat) (map : Map (Value μ))
    (call : Map (Value μ) → MapResult (α × Map (Value μ))) : Exec μ κ (α × Map (Value μ)) := do
  let inIteration ← readVm Vm.inIteration
  match call (map.setIsInIteration (inIteration.contains addr)) with
  | .ok (result, after) => do
    writeVm fun vm => { vm with
      inIteration := flagged addr after.isInIteration vm.inIteration }
    pure (result, after)
  | .error (.threw error) => raise error
  | .error _ => Proc.abort

/-- What a loop does with an entry: the result so far, its index, its key and its value. -/
abbrev Body (μ κ β : Type) := β → Nat → Str × Value μ → Exec μ κ β

/-- `do { body } while (handlebars_value_iterator_next(iter))`, for so many steps. -/
def foreachLoop (addr : Nat) (body : Body μ κ β) :
    Nat → Map (Value μ) → Nat → Str × Value μ → β → Exec μ κ β
  | 0, _, _, _, _ => Proc.exhaust
  | left + 1, map, index, cur, result => do
    let result ← body result index cur
    match ← onMap addr map fun map => map.iteratorNext index with
    | (some next, map) => foreachLoop addr body left map (index + 1) next result
    | (none, _) => pure result

/-- `HANDLEBARS_VALUE_FOREACH_IDX_KV` over a map. -/
def foreachMap (addr : Nat) (map : Map (Value μ)) (body : Body μ κ β) (result : β) :
    Exec μ κ β := do
  match ← onMap addr map Map.iteratorInit with
  | (some first, after) => foreachLoop addr body map.count after 0 first result
  | (none, _) => pure result

/-- The body once for each entry of a map, in their order, with the map marked. -/
def foreachEntry (addr : Nat) (entries : List (Str × Value μ)) (body : Body μ κ β) (result : β) :
    Exec μ κ β := do
  beginIteration (.map addr entries)
  let result ← entries.zipIdx.foldlM (fun result visit => body result visit.2 visit.1) result
  endIteration (.map addr entries)
  pure result

theorem flagged_contains (addr : Nat) (inIteration : List Nat) :
    flagged addr (inIteration.contains addr) inIteration = inIteration := by
  unfold flagged
  cases present : inIteration.contains addr with
  | true => rfl
  | false =>
    apply List.erase_of_not_mem
    simpa using present

theorem onMap_ok {addr : Nat} {map : Map (Value μ)} {machine : Machine μ κ}
    {call : Map (Value μ) → MapResult (α × Map (Value μ))}
    (called : call (map.setIsInIteration (machine.vm.inIteration.contains addr)) =
      .ok (result, after)) :
    (onMap addr map call : Exec μ κ _) machine = (.ok (result, after) { machine with
      vm := { machine.vm with
        inIteration := flagged addr after.isInIteration machine.vm.inIteration } }, []) := by
  unfold onMap
  change Proc.andThen (readVm Vm.inIteration) _ machine = _
  unfold Proc.andThen
  change ((_ : Exec μ κ _) machine |>.1, [] ++ _) = _
  dsimp only
  rw [called]
  rfl

theorem onMap_crashed {addr : Nat} {map : Map (Value μ)} {machine : Machine μ κ}
    {call : Map (Value μ) → MapResult (α × Map (Value μ))}
    (crashed : call (map.setIsInIteration (machine.vm.inIteration.contains addr)) =
      .error .crashed) :
    (onMap addr map call : Exec μ κ _) machine = (.aborted machine, []) := by
  unfold onMap
  change Proc.andThen (readVm Vm.inIteration) _ machine = _
  unfold Proc.andThen
  change ((_ : Exec μ κ _) machine |>.1, [] ++ _) = _
  dsimp only
  rw [crashed]
  rfl

/-- A map that is being iterated cannot be iterated again. -/
theorem begin_closed {addr : Nat} {first : Str × Value μ} {rest : List (Str × Value μ)}
    {machine : Machine μ κ} (closed : machine.vm.inIteration.contains addr = true) :
    (beginIteration (.map addr (first :: rest)) : Exec μ κ Unit) machine =
      (.aborted machine, []) := by
  unfold beginIteration
  dsimp only
  rw [Proc.bind_ran (readVm_ran _ machine), if_pos closed]
  rfl

theorem begin_open {addr : Nat} {first : Str × Value μ} {rest : List (Str × Value μ)}
    {machine : Machine μ κ} (closed : machine.vm.inIteration.contains addr = false) :
    (beginIteration (.map addr (first :: rest)) : Exec μ κ Unit) machine =
      (.ok () { machine with
        vm := { machine.vm with inIteration := addr :: machine.vm.inIteration } }, []) := by
  unfold beginIteration
  dsimp only
  rw [Proc.bind_ran (readVm_ran _ machine), if_neg (Bool.eq_false_iff.mp closed)]
  rfl

section Steps

variable {map : Map (Value μ)} {index : Nat}

/-- Between two entries the iterator only moves on. -/
theorem onMap_next (valid : Map.Valid hash map) (compacting : Map.Compacting hash map)
    (more : map.pairs[index + 1]? = some next) (addr : Nat) (flag : Bool)
    (machine : Machine μ κ) : ∃ later,
    (onMap addr (map.sparseArrayCompact.setIsInIteration flag)
      (fun map => map.iteratorNext index) : Exec μ κ _) machine =
      (.ok (some next, map.sparseArrayCompact.setIsInIteration later) machine, []) := by
  have bound : index + 1 < map.count := by
    rw [← Map.length_pairs valid]
    exact (List.getElem?_eq_some_iff.mp more).1
  let now := machine.vm.inIteration.contains addr
  have called : Map.iteratorNext (map.sparseArrayCompact.setIsInIteration now) index =
      .ok (some next, map.sparseArrayCompact.setIsInIteration now) := by
    unfold Map.iteratorNext
    change (if 0 < map.sparseArrayCompact.count ∧ index ≥ map.sparseArrayCompact.count - 1 then _
      else _) = _
    rw [Map.sparseArrayCompact_count, if_neg (by omega),
      compacting.getKvAtIndex valid now _ next more]
    rfl
  refine ⟨now, ?_⟩
  rw [onMap_ok called]
  change (Outcome.ok _ { machine with vm := { machine.vm with
    inIteration := flagged addr (machine.vm.inIteration.contains addr) _ } }, []) = _
  rw [flagged_contains]

/-- After the last entry it takes the mark away. -/
theorem onMap_end (valid : Map.Valid hash map) (last : index + 1 = map.pairs.length)
    (addr : Nat) (flag : Bool) (machine : Machine μ κ) : ∃ after,
    (onMap addr (map.sparseArrayCompact.setIsInIteration flag)
      (fun map => map.iteratorNext index) : Exec μ κ _) machine =
      (.ok (none, after) { machine with vm := { machine.vm with
        inIteration := machine.vm.inIteration.erase addr } }, []) := by
  have count := Map.length_pairs valid
  let now := machine.vm.inIteration.contains addr
  have called : Map.iteratorNext (map.sparseArrayCompact.setIsInIteration now) index =
      .ok (none, map.sparseArrayCompact.setIsInIteration false) := by
    unfold Map.iteratorNext
    change (if 0 < map.sparseArrayCompact.count ∧ index ≥ map.sparseArrayCompact.count - 1 then _
      else _) = _
    rw [Map.sparseArrayCompact_count, if_pos (by omega)]
    rfl
  refine ⟨map.sparseArrayCompact.setIsInIteration false, ?_⟩
  rw [onMap_ok called]
  rfl

theorem foreachLoop_eq (valid : Map.Valid hash map) (compacting : Map.Compacting hash map)
    (addr : Nat) (body : Body μ κ β) (cur : Str × Value μ) (rest : List (Str × Value μ))
    (index : Nat) (flag : Bool) (result : β) (row : map.pairs.drop index = cur :: rest) :
    foreachLoop addr body (cur :: rest).length (map.sparseArrayCompact.setIsInIteration flag) index
      cur result = (do
        let result ← ((cur :: rest).zipIdx index).foldlM
          (fun result visit => body result visit.2 visit.1) result
        writeVm fun vm => { vm with inIteration := vm.inIteration.erase addr }
        pure result) := by
  induction rest generalizing cur index flag result with
  | nil =>
    have last : index + 1 = map.pairs.length := by
      have lengths := congrArg List.length row
      rw [List.length_drop, List.length_singleton] at lengths
      omega
    simp only [List.zipIdx_cons, List.zipIdx_nil, List.foldlM_cons, List.foldlM_nil, bind_pure]
    unfold foreachLoop
    refine bind_congr fun result => ?_
    funext machine
    obtain ⟨after, ended⟩ := onMap_end valid last addr flag machine
    rw [Proc.bind_ran ended]
    rfl
  | cons next rest ih =>
    have later : map.pairs.drop (index + 1) = next :: rest := by
      rw [← List.tail_drop, row, List.tail_cons]
    have more : map.pairs[index + 1]? = some next := by
      rw [← List.head?_drop, later, List.head?_cons]
    rw [List.zipIdx_cons, List.foldlM_cons, bind_assoc]
    unfold foreachLoop
    refine bind_congr fun result => ?_
    funext machine
    obtain ⟨flag, moved⟩ := onMap_next valid compacting more addr flag machine
    rw [Proc.bind_ran moved]
    exact congrFun (ih next (index + 1) flag result later) machine

/-- The loop over a map that compaction leaves whole runs its body once for each entry. -/
theorem foreachMap_eq (valid : Map.Valid hash map) (compacting : Map.Compacting hash map)
    (addr : Nat) (body : Body μ κ β) (result : β) :
    foreachMap addr map body result = foreachEntry addr map.pairs body result := by
  have count := Map.length_pairs valid
  funext machine
  let now := machine.vm.inIteration.contains addr
  unfold foreachMap foreachEntry
  cases entries : map.pairs with
  | nil =>
    have empty : map.count = 0 := by
      rw [← count, entries]
      rfl
    have called : Map.iteratorInit (map.setIsInIteration now) =
        .ok (none, map.setIsInIteration now) := if_pos empty
    have same : (onMap addr map Map.iteratorInit : Exec μ κ _) machine =
        (.ok (none, map.setIsInIteration now) machine, []) := by
      rw [onMap_ok called]
      change (Outcome.ok _ { machine with vm := { machine.vm with
        inIteration := flagged addr (machine.vm.inIteration.contains addr) _ } }, []) = _
      rw [flagged_contains]
    rw [Proc.bind_ran same]
    rfl
  | cons first rest =>
    have present : map.pairs[0]? = some first := by rw [entries, List.getElem?_cons_zero]
    have notEmpty : ¬map.count = 0 := by
      rw [← count, entries]
      exact Nat.succ_ne_zero _
    have started : Map.iteratorInit (map.setIsInIteration now) =
        if now then .error .crashed
        else .ok (some first, map.sparseArrayCompact.setIsInIteration true) := by
      unfold Map.iteratorInit
      change (if map.count = 0 then _ else _) = _
      rw [if_neg notEmpty, Map.setIsInIteration_compact]
      dsimp only
      rw [compacting.getKvAtIndex valid now 0 first present]
      rfl
    cases closed : machine.vm.inIteration.contains addr with
    | true =>
      have crashed : Map.iteratorInit (map.setIsInIteration now) = .error .crashed := by
        rw [started]
        exact if_pos closed
      rw [Proc.bind_aborted (onMap_crashed crashed), Proc.bind_aborted (begin_closed closed)]
    | false =>
      have called : Map.iteratorInit (map.setIsInIteration now) =
          .ok (some first, map.sparseArrayCompact.setIsInIteration true) := by
        rw [started]
        exact if_neg (Bool.eq_false_iff.mp closed)
      rw [Proc.bind_ran (onMap_ok called), Proc.bind_ran (begin_open closed), ← count, entries]
      have whole : map.pairs.drop 0 = first :: rest := entries
      have loop := foreachLoop_eq valid compacting addr body first rest 0 true result whole
      have marked : flagged addr true machine.vm.inIteration = addr :: machine.vm.inIteration :=
        if_neg (Bool.eq_false_iff.mp closed)
      change foreachLoop addr body _ _ 0 first result { machine with
        vm := { machine.vm with inIteration := flagged addr true machine.vm.inIteration } } = _
      rw [loop, marked]
      rfl

end Steps

/-- The body of the loops that copy the entries of a map. -/
def copyEntry (hash : StringHash) : Body μ κ (List (Str × Value μ)) :=
  fun into _ entry => pure (StrMap.update hash into entry.1 entry.2)

theorem copyLoop_eq (platform : Platform) (entries : List (Str × Value μ)) (index : Nat)
    (stale : Value μ) (into : List (Str × Value μ)) :
    (copyEntries.copyLoop platform stale
      (entries.map fun entry => (some entry.1, .value entry.2)) into : Exec μ κ _) =
      (entries.zipIdx index).foldlM
        (fun into visit => copyEntry platform.hash into visit.2 visit.1) into := by
  induction entries generalizing index stale into with
  | nil => rfl
  | cons entry rest ih =>
    rw [List.zipIdx_cons, List.foldlM_cons, List.map_cons]
    exact ih (index + 1) entry.2 (StrMap.update platform.hash into entry.1 entry.2)

theorem copyEntries_eq (platform : Platform) (addr : Nat) (entries into : List (Str × Value μ)) :
    (copyEntries platform (.map addr entries) into : Exec μ κ _) =
      foreachEntry addr entries (copyEntry platform.hash) into := by
  unfold copyEntries foreachEntry
  rw [← copyLoop_eq platform entries 0 .null into]
  rfl

/-- The body of the loop of `#each`, over the data and the text so far. -/
def eachStep (env : Env μ κ) (rec : Rec μ κ) (options : Options μ) (len : Nat) :
    Body μ κ (Option (List (Str × Value μ)) × Str) := fun state i entry => do
  let keyValue : Value μ := .string entry.1 false
  let dataMap := state.1.map fun entries => eachData env.platform entries i len keyValue
  let addr ← allocate
  let blockParamsAddr ← allocate
  let data : Value μ := match dataMap with
    | some entries => .map addr entries
    | none => .null
  let blockParams : Value μ := match dataMap with
    | some _ => .array blockParamsAddr [entry.2, keyValue]
    | none => .null
  let text ← rec.executeProgramEx options.program entry.2 (some data) (some blockParams)
  pure (dataMap, state.2 ++ text)

theorem eachLoop_eq (env : Env μ κ) (rec : Rec μ κ) (options : Options μ) (len i : Nat)
    (entries : List (Str × Value μ)) (dataMap : Option (List (Str × Value μ))) (stale : Value μ)
    (result : Str) :
    eachLoop env rec options len i dataMap stale
      (entries.map fun entry => (some entry.1, .value entry.2)) result = (do
        let state ← (entries.zipIdx i).foldlM
          (fun state visit => eachStep env rec options len state visit.2 visit.1) (dataMap, result)
        pure state.2) := by
  induction entries generalizing i dataMap stale result with
  | nil => rfl
  | cons entry rest ih =>
    rw [List.zipIdx_cons, List.foldlM_cons, List.map_cons, eachLoop]
    simp only [eachStep, bind_assoc, pure_bind]
    unfold childValue
    simp only [pure_bind, ih]
    rfl

theorem builtinEach_eq (env : Env μ κ) (rec : Rec μ κ) (options : Options μ) (addr : Nat)
    (first : Str × Value μ) (others : List (Str × Value μ)) (rest : List (Value μ)) :
    builtinEach env rec (.map addr (first :: others) :: rest) options = (do
      let dataMap ← eachDataMap env options
      let state ← foreachEntry addr (first :: others) (eachStep env rec options others.length)
        (dataMap, [])
      pure (.string state.2 false)) := by
  have notCallable : (Value.map addr (first :: others) : Value μ).isCallable = false := rfl
  have notEmpty : ¬(Value.map addr (first :: others) : Value μ).count ≤ 0 := by
    change ¬((others.length : Int) + 1) ≤ 0
    omega
  unfold builtinEach resolveArgument
  dsimp only
  rw [notCallable, if_neg Bool.false_ne_true, pure_bind, if_pos (.inl rfl)]
  refine bind_congr fun dataMap => ?_
  rw [if_neg notEmpty]
  unfold foreachEntry
  simp only [bind_assoc, pure_bind]
  refine bind_congr fun _ => ?_
  have loop := eachLoop_eq env rec options others.length 0 (first :: others) dataMap .null []
  change (eachLoop env rec options others.length 0 dataMap .null (children (.map addr _)) [] >>= _) = _
  unfold children
  rw [loop]
  simp only [bind_assoc, pure_bind]

theorem mergeHash_eq (env : Env μ κ) {addr other : Nat} {input hash : List (Str × Value μ)}
    (some_ : input ≠ []) (others : hash ≠ []) :
    mergeHash env (.map addr input) (some (.map other hash)) = (do
      let entries ← foreachEntry addr input (copyEntry env.platform.hash) []
      let entries ← foreachEntry other hash (copyEntry env.platform.hash) entries
      let addr ← allocate
      pure (.map addr entries)) := by
  have counts : (Value.map addr input : Value μ).type = .map ∧
      (Value.map addr input : Value μ).count > 0 ∧ (Value.map other hash : Value μ).type = .map ∧
      (Value.map other hash : Value μ).count > 0 := by
    refine ⟨rfl, ?_, rfl, ?_⟩
    · exact Int.natCast_pos.mpr (List.length_pos_iff.mpr some_)
    · exact Int.natCast_pos.mpr (List.length_pos_iff.mpr others)
  unfold mergeHash
  dsimp only
  rw [if_pos counts]
  simp only [copyEntries_eq]

mutual

/-- `handlebars_value_convert_ex`: what an array or a map contains is copied into the
iterator before it is converted. -/
def valueConvert (hash : StringHash) : Value μ → Exec μ κ (Value μ)
  | .user _ json => convertJson hash json
  | .array addr items => do
    convertArray hash items
    pure (.array addr items)
  | .map addr entries => do
    beginIteration (.map addr entries)
    convertMap hash entries
    endIteration (.map addr entries)
    pure (.map addr entries)
  | value => pure value

def convertArray (hash : StringHash) : List (Value μ) → Exec μ κ Unit
  | [] => pure ()
  | item :: rest => do
    let _ ← valueConvert hash item
    convertArray hash rest

def convertMap (hash : StringHash) : List (Str × Value μ) → Exec μ κ Unit
  | [] => pure ()
  | (_, value) :: rest => do
    let _ ← valueConvert hash value
    convertMap hash rest

end

theorem convertMap_eq (hash : StringHash) (entries : List (Str × Value μ)) (index : Nat) :
    (convertMap hash entries : Exec μ κ Unit) = (entries.zipIdx index).foldlM
      (fun _ visit => valueConvert hash visit.1.2 >>= fun _ => pure ()) () := by
  induction entries generalizing index with
  | nil => rw [convertMap]; rfl
  | cons entry rest ih =>
    rw [convertMap, List.zipIdx_cons, List.foldlM_cons, ih (index + 1)]
    simp only [bind_assoc, pure_bind]

theorem valueConvert_eq (hash : StringHash) (addr : Nat) (entries : List (Str × Value μ)) :
    (valueConvert hash (.map addr entries) : Exec μ κ _) = (do
      foreachEntry addr entries
        (fun _ _ entry => valueConvert hash entry.2 >>= fun _ => pure ()) ()
      pure (.map addr entries)) := by
  rw [valueConvert, convertMap_eq hash entries 0]
  unfold foreachEntry
  simp only [bind_assoc, pure_bind]

/-- What the loops of the VM over a map that has entries are, and what they do. -/
structure Iterated (env : Env μ κ) (addr : Nat) (map : Map (Value μ)) : Prop where
  /-- While a map is in iteration, to begin another one ends the process. -/
  closed : ∀ {β : Type} (body : Body μ κ β) (result : β) (machine : Machine μ κ),
    machine.vm.inIteration.contains addr = true →
      foreachMap addr map body result machine = (.aborted machine, [])
  /-- Else the body runs once for each entry, in their order, with the map marked, and then
  the mark is taken away. -/
  visited : ∀ {β : Type} (body : Body μ κ β) (result : β) (machine : Machine μ κ),
    machine.vm.inIteration.contains addr = false →
      foreachMap addr map body result machine = (do
        let result ← map.pairs.zipIdx.foldlM (fun result visit => body result visit.2 visit.1)
          result
        writeVm fun vm => { vm with inIteration := vm.inIteration.erase addr }
        pure result : Exec μ κ β)
        { machine with vm := { machine.vm with inIteration := addr :: machine.vm.inIteration } }
  /-- `#each` -/
  each : ∀ (rec : Rec μ κ) (rest : List (Value μ)) (options : Options μ),
    builtinEach env rec (.map addr map.pairs :: rest) options = (do
      let dataMap ← eachDataMap env options
      let state ← foreachMap addr map (eachStep env rec options (map.count - 1)) (dataMap, [])
      pure (.string state.2 false))
  /-- What `#each` does with the data. -/
  copied : ∀ into : List (Str × Value μ),
    (copyEntries env.platform (.map addr map.pairs) into : Exec μ κ _) =
      foreachMap addr map (copyEntry env.platform.hash) into
  /-- `merge_hash` -/
  merged : ∀ {other : Nat} {hash : Map (Value μ)}, hash.Valid env.platform.hash →
    hash.Compacting env.platform.hash → hash.pairs ≠ [] →
    mergeHash env (.map addr map.pairs) (some (.map other hash.pairs)) = (do
      let entries ← foreachMap addr map (copyEntry env.platform.hash) []
      let entries ← foreachMap other hash (copyEntry env.platform.hash) entries
      let addr ← allocate
      pure (.map addr entries))
  /-- `handlebars_value_convert_ex` -/
  converted : (valueConvert env.platform.hash (.map addr map.pairs) : Exec μ κ _) = (do
    foreachMap addr map
      (fun _ _ entry => valueConvert env.platform.hash entry.2 >>= fun _ => pure ()) ()
    pure (.map addr map.pairs))

theorem iterated {env : Env μ κ} {map : Map (Value μ)} (valid : map.Valid env.platform.hash)
    (compacting : map.Compacting env.platform.hash) (entries : map.pairs ≠ []) (addr : Nat) :
    Iterated env addr map where
  closed body result machine closed := by
    rw [foreachMap_eq valid compacting]
    obtain ⟨first, rest, row⟩ := List.exists_cons_of_ne_nil entries
    unfold foreachEntry
    rw [row, Proc.bind_aborted (begin_closed closed)]
  visited body result machine closed := by
    rw [foreachMap_eq valid compacting]
    obtain ⟨first, rest, row⟩ := List.exists_cons_of_ne_nil entries
    unfold foreachEntry
    rw [row, Proc.bind_ran (begin_open closed)]
    rfl
  each rec rest options := by
    obtain ⟨first, others, row⟩ := List.exists_cons_of_ne_nil entries
    have count : others.length = map.count - 1 := by
      rw [← Map.length_pairs valid, row]
      rfl
    simp only [foreachMap_eq valid compacting]
    rw [row, builtinEach_eq, count]
  copied into := by rw [copyEntries_eq, foreachMap_eq valid compacting]
  merged otherValid otherCompacting others := by
    simp only [foreachMap_eq valid compacting, foreachMap_eq otherValid otherCompacting]
    exact mergeHash_eq env entries others
  converted := by
    rw [valueConvert_eq]
    simp only [foreachMap_eq valid compacting]

/-- An iteration over a map that has entries and no holes, but for one that compaction can
deal with, visits each entry once, and ends the process if the map is being iterated already.
A render in which no error is caught leaves the marks of all maps as they were. -/
theorem map_iteration (env : Env μ κ) :
    (∀ (map : Map (Value μ)), map.Valid env.platform.hash →
      (map.isSparse = false ∨ map.FirstHole 1) → map.pairs ≠ [] →
        ∀ addr, Iterated env addr map) ∧
    ∀ fuel module context (machine after : Machine μ κ) buffer,
      (execute env (level env fuel) module context machine).1 = .ok buffer after →
      (∀ event ∈ (execute env (level env fuel) module context machine).2, event.Uncaught) →
        after.vm.inIteration = machine.vm.inIteration := by
  constructor
  · intro map valid harmless entries addr
    exact iterated valid (Map.packed_of_harmless valid harmless) entries addr
  · intro fuel module context machine after buffer returned uncaught
    have kept : Kept (.any env) false (execute env (level env fuel) module context) :=
      .execute (level_kept (.any env) fuel) module context
    have ended := (kept machine trivial uncaught).2
    rw [returned] at ended
    exact congrArg Setting.inIteration ended.setting

section Several

/-- A block over `each` with one argument. -/
def eachBlock (parents : Nat) (argument : Str) (body : List Statement) : Statement :=
  let path : PathNode := ⟨LocInfo.zero, some (bytes "each"), [bytes "each"], 0, false, false, false⟩
  let over_ : PathNode := ⟨LocInfo.zero, some argument, [], parents, false, false, false⟩
  .block LocInfo.zero (.path path) [.name (.path over_)] none
    (some (.mk LocInfo.zero [] body none none)) none false

/-- `{{#each this}}{{/each}}` -/
def eachTemplate : ProgramNode :=
  .mk LocInfo.zero [] [eachBlock 0 (bytes "this") []] none none

def eachModule : Option Module :=
  (Compiler.compileEx pairEnv.platform 0 [] (some eachTemplate)).bind fun compiler =>
    Serializer.programSerialize 0 0 compiler.program

def eachEnv : Env Unit Unit := { pairEnv with module := fun _ => eachModule.getD pushingModule }

/-- A map made for four entries, to which three have been added. -/
def severalMap : Map (Value Unit) :=
  ⟨3, 3, false, 0, [some ⟨bytes "a", .boolean true, 9⟩, some ⟨bytes "b", .boolean false, 10⟩,
    some ⟨bytes "c", .integer 2, 0⟩, none], .entry 2 :: List.replicate 8 .null ++ [.entry 0, .entry 1]⟩

theorem intact_added {hash : StringHash} {map after : Map α} (intact : map.Intact hash)
    (small : map.count ≤ Map.maxCount)
    (absent : ∀ pair ∈ map.pairs, stringEq hash pair.1 key = false)
    (added : map.add hash key value = .ok after) : after.Intact hash := by
  obtain ⟨other, same, intactAfter, -⟩ :=
    intact.add_absent small (Map.absent_iff_pairs.mpr absent) value
  cases added.symm.trans same
  exact intactAfter

theorem severalMap_intact : severalMap.Intact eachEnv.platform.hash := by
  obtain ⟨empty, created, intact, -⟩ :=
    Map.Intact.ctor (α := Value Unit) eachEnv.platform.hash (show 4 ≤ Map.maxCapacity by decide)
  cases created.symm.trans rfl
  have first := intact_added intact (by decide) (by decide)
    (rfl : Map.add _ _ (bytes "a") (.boolean true) = .ok _)
  have second := intact_added first (by decide) (by decide)
    (rfl : Map.add _ _ (bytes "b") (.boolean false) = .ok _)
  exact intact_added second (by decide) (by decide)
    (rfl : Map.add _ _ (bytes "c") (.integer 2) = .ok _)

/-- How a procedure ends. -/
def endsReturned : Outcome σ α → Bool
  | .ok _ _ => true
  | _ => false

def isUncaught : Event μ κ → Bool
  | .caught => false
  | _ => true

theorem exists_returned {outcome : Outcome σ α} (returned : endsReturned outcome = true) :
    ∃ value after, outcome = .ok value after := by
  cases outcome with
  | ok value after => exact ⟨value, after, rfl⟩
  | thrown | aborted | exhausted => cases returned

theorem uncaught_of_all {log : List (Event μ κ)} (quiet : log.all isUncaught = true) :
    ∀ event ∈ log, event.Uncaught := by
  intro event member
  have here := List.all_eq_true.mp quiet event member
  cases event with
  | caught => cases here
  | _ => trivial

/-- A loop over three entries, and a render that runs it and takes its mark away again -/
theorem map_iteration_several : Iterated eachEnv 7 severalMap ∧ ∃ buffer after,
    (execute eachEnv (level eachEnv 6) () (.map 7 severalMap.pairs) ⟨vmCtor true, []⟩).1 =
      .ok buffer after ∧ after.vm.inIteration = [] := by
  obtain ⟨buffer, after, ended⟩ := exists_returned (by decide +kernel : endsReturned
    (execute eachEnv (level eachEnv 6) () (.map 7 severalMap.pairs) ⟨vmCtor true, []⟩).1 = true)
  have uncaught := uncaught_of_all (by decide +kernel : (execute eachEnv (level eachEnv 6) ()
    (.map 7 severalMap.pairs) ⟨vmCtor true, []⟩).2.all isUncaught = true)
  exact ⟨(map_iteration eachEnv).1 severalMap severalMap_intact.valid (.inl rfl) (by decide) 7,
    buffer, after, ended, (map_iteration eachEnv).2 6 () _ _ after buffer ended uncaught⟩

end Several

section Nested

/-- `{{#each this}}{{#each ..}}{{/each}}{{/each}}` -/
def nestedTemplate : ProgramNode :=
  .mk LocInfo.zero [] [eachBlock 0 (bytes "this") [eachBlock 1 (bytes "..") []]] none none

def nestedModule : Option Module :=
  (Compiler.compileEx pairEnv.platform 0 [] (some nestedTemplate)).bind fun compiler =>
    Serializer.programSerialize 0 0 compiler.program

def nestedEnv : Env Unit Unit := { pairEnv with module := fun _ => nestedModule.getD pushingModule }

/-- How a procedure ends. -/
def endsAborted : Outcome σ α → Bool
  | .aborted _ => true
  | _ => false

/-- The inner loop goes over the map that the outer one is at. -/
theorem map_iteration_nested : nestedModule.isSome = true ∧
    endsAborted (execute nestedEnv (level nestedEnv 6) () (.map 10 [(bytes "a", .boolean true)])
      ⟨vmCtor true, []⟩).1 = true := by
  decide +kernel

end Nested

end Exec

end HandlebarsC
