import HandlebarsC.Vm.Json

/-!
What the VM is told about a JSON document behind a user value, and about the value that the
document is converted to.
-/

namespace HandlebarsC

open Effect

namespace Value

variable {μ : Type}

theorem eraseItems_eq (items : List (Value μ)) : eraseItems items = items.map erase := by
  induction items with
  | nil => rfl
  | cons item rest ih => rw [eraseItems, ih, List.map_cons]

theorem eraseEntries_eq (entries : List (Str × Value μ)) :
    eraseEntries entries = entries.map fun entry => (entry.1, entry.2.erase) := by
  induction entries with
  | nil => rfl
  | cons entry rest ih => rw [eraseEntries, ih, List.map_cons]

end Value

namespace Json

variable {μ : Type} {hash : StringHash}

theorem nativeItems_eq (items : List Json) :
    (nativeItems hash items : List (Value μ)) = items.map (native hash) := by
  induction items with
  | nil => rfl
  | cons item rest ih => rw [nativeItems, ih, List.map_cons]

theorem nativeMembers_eq (entries : List (Str × Json)) (map : List (Str × Value μ)) :
    nativeMembers hash map entries =
      StrMap.updateAll hash map (entries.map fun entry => (entry.1, entry.2.native hash)) := by
  induction entries generalizing map with
  | nil => rfl
  | cons entry rest ih => exact ih _

theorem native_not_user (json : Json) (addr : Nat) (other : Json) :
    (json.native hash : Value μ) ≠ .user addr other := by
  cases json <;> nofun

theorem native_eq_null (json : Json) :
    (json.native hash : Value μ) = .null ↔ Exec.isJsonNull json = true := by
  cases json <;> simp [native, Exec.isJsonNull]

/-- A conversion puts only converted values under its keys. -/
theorem mem_nativeMembers (entries : List (Str × Json)) (map : List (Str × Value μ))
    (natives : ∀ entry ∈ map, ∃ json : Json, entry.2 = json.native hash) :
    ∀ entry ∈ nativeMembers hash map entries, ∃ json : Json, entry.2 = json.native hash := by
  induction entries generalizing map with
  | nil => exact natives
  | cons added rest ih =>
    refine ih (StrMap.update hash map added.1 (added.2.native hash)) ?_
    intro entry member
    rcases StrMap.mem_update member with new | ⟨old, there, same⟩
    · exact ⟨added.2, new⟩
    · obtain ⟨json, native⟩ := natives old there
      exact ⟨json, same.symm.trans native⟩

end Json

/-- The value is what the document is converted to, wherever it is. -/
def Converted (hash : StringHash) (json : Json) (value : Value μ) : Prop :=
  value.erase = json.native hash

theorem Converted.plain {hash : StringHash} {json : Json} {value : Value μ}
    (converted : Converted hash json value) : value.plain hash = json.native hash := by
  cases value with
  | user addr other => exact absurd converted.symm (json.native_not_user addr other)
  | _ => exact converted

/-- Where a value stands for a document, so it does with what it was put under. -/
theorem Converted.plain_map {hash : StringHash} {found : Option (Value μ)} {item : Option Json}
    (same : found.map Value.erase = item.map (Json.native hash)) :
    found.map (Value.plain hash) = item.map (Json.native hash) := by
  cases found with
  | none => exact same
  | some value =>
    cases item with
    | none => cases same
    | some item =>
      have converted : Converted hash item value := Option.some.inj same
      rw [Option.map_some, converted.plain, Option.map_some]

theorem Converted.array {hash : StringHash} {items : List Json} {value : Value μ}
    (converted : Converted hash (.array items) value) : ∃ addr values, value = .array addr values ∧
      values.map (Value.plain hash) = items.map (Json.native hash) := by
  cases value with
  | array addr values =>
    refine ⟨addr, values, rfl, ?_⟩
    have same := (Value.array.inj converted).2
    rw [Value.eraseItems_eq, Json.nativeItems_eq] at same
    apply List.ext_getElem?
    intro place
    have here := congrArg (·[place]?) same
    simp only [List.getElem?_map] at here ⊢
    exact Converted.plain_map here
  | _ => cases converted

theorem Converted.object {hash : StringHash} {entries : List (Str × Json)} {value : Value μ}
    (converted : Converted hash (.object entries) value) : ∃ addr stored, value = .map addr stored ∧
      (stored.map fun entry => (entry.1, entry.2.plain hash)) = Json.nativeMembers hash [] entries := by
  cases value with
  | map addr stored =>
    refine ⟨addr, stored, rfl, ?_⟩
    have same := (Value.map.inj converted).2
    rw [Value.eraseEntries_eq] at same
    rw [← same]
    apply List.map_congr_left
    intro entry member
    have erased : (entry.1, entry.2.erase) ∈ Json.nativeMembers hash [] entries :=
      same ▸ List.mem_map_of_mem member
    obtain ⟨json, native⟩ := Json.mem_nativeMembers entries [] (fun _ none => nomatch none) _ erased
    have here : Converted hash json entry.2 := native
    rw [here.plain, ← native]
  | _ => cases converted

namespace Exec

variable {μ κ : Type} {hash : StringHash}

theorem allocate_returns : (allocate : Exec μ κ Nat).Returns fun _ => True :=
  fun _ => ⟨_, _, rfl, trivial⟩

mutual

/-- The conversion of a document returns the value that it stands for. -/
theorem convertJson_returns (json : Json) :
    (convertJson hash json : Exec μ κ (Value μ)).Returns (Converted hash json) := by
  cases json with
  | array items =>
    rw [convertJson]
    refine Proc.returns_bind allocate_returns fun addr _ => ?_
    refine Proc.returns_bind (convertItems_returns items) fun values same => ?_
    refine Proc.returns_pure ?_
    rw [Converted, Value.erase, same, Json.native]
  | object entries =>
    rw [convertJson]
    refine Proc.returns_bind allocate_returns fun addr _ => ?_
    refine Proc.returns_bind (convertMembers_returns [] entries) fun values same => ?_
    refine Proc.returns_pure ?_
    rw [Converted, Value.erase, same, Json.native, Value.eraseEntries]
  | _ =>
    rw [convertJson]
    exact Proc.returns_pure rfl

theorem convertItems_returns (items : List Json) :
    (convertItems hash items : Exec μ κ _).Returns fun values =>
      Value.eraseItems values = Json.nativeItems hash items := by
  cases items with
  | nil => exact Proc.returns_pure rfl
  | cons item rest =>
    rw [convertItems]
    refine Proc.returns_bind (convertJson_returns item) fun value converted => ?_
    refine Proc.returns_bind (convertItems_returns rest) fun values same => ?_
    refine Proc.returns_pure ?_
    rw [Value.eraseItems, same, Json.nativeItems, converted]

theorem convertMembers_returns (map : List (Str × Value μ)) (entries : List (Str × Json)) :
    (convertMembers hash map entries : Exec μ κ _).Returns fun values =>
      Value.eraseEntries values =
        Json.nativeMembers hash (Value.eraseEntries map) entries := by
  match entries with
  | [] => exact Proc.returns_pure rfl
  | (key, item) :: rest =>
    rw [convertMembers]
    refine Proc.returns_bind (convertJson_returns item) fun value converted => ?_
    refine Proc.returns_mono (convertMembers_returns (StrMap.update hash map key value) rest) ?_
    intro values same
    rw [same, Json.nativeMembers, Value.eraseEntries_eq, Value.eraseEntries_eq, StrMap.map_update,
      converted]

end

/-- A question the VM asks a collection. -/
inductive Query where
  | count
  | find (key : Str)
  | item (index : Nat)
  | visits

/-- An answer; without one the process has ended. -/
inductive Answer (μ : Type) where
  | count (count : Int)
  | found (found : Option (Option (Value μ)))
  | visited (visited : Option (List (Visit μ)))

def Visit.plain (hash : StringHash) (visit : Visit μ) : Visit μ :=
  { visit with cur := visit.cur.plain hash }

/-- What the VM is told, but for where values are and which of them are JSON. -/
def answer (platform : Platform) (machine : Machine μ κ) (value : Value μ) : Query → Answer μ
  | .count => .count value.count
  | .find key => .found ((mapFind platform value key machine).1.value?.map
      (Option.map (Value.plain platform.hash)))
  | .item index => .found ((arrayFind value index machine).1.value?.map
      (Option.map (Value.plain platform.hash)))
  | .visits => .visited ((visits value machine).1.value?.map
      (List.map (Visit.plain platform.hash)))

/-- The value of the last member whose key is equal to a key, as maps compare keys. -/
def lastAlike (hash : StringHash) (entries : List (Str × Json)) (key : Str) : Option Json :=
  (entries.reverse.find? fun entry => stringEq hash entry.1 key).map (·.2)

/-- Every `null` comes before everything else. -/
def nullsFirst : List Json → Bool
  | [] => true
  | item :: rest => if isJsonNull item then nullsFirst rest else rest.all fun item => !isJsonNull item

/-- What the JSON library finds is not `null`, and the same document as is wanted; or nothing
is wanted and there is only a `null` to be found. -/
def SameFound (μ : Type) (hash : StringHash) (found : Option Json) : Option Json → Prop
  | none => ∀ item, found = some item → isJsonNull item = true
  | some wanted => ∃ item, found = some item ∧ isJsonNull item = false ∧
      (item.native hash : Value μ) = wanted.native hash

/-- When a document and the value it is converted to answer alike. -/
def AnswersAlike (μ : Type) (hash : StringHash) : Json → Query → Prop
  | .object entries, .count =>
    entries.Pairwise fun left right => stringEq hash left.1 right.1 = false
  | .object entries, .find key =>
    SameFound μ hash (jsonMember entries key) (lastAlike hash entries key)
  | .object entries, .visits => entries.length = 1
  | .array items, .item index =>
    SameFound μ hash ((jsonIndex index).bind fun narrow => items[narrow]?) items[index]?
  | .array items, .visits => items ≠ [] ∧ nullsFirst items = true
  | _, _ => True

theorem valueOfJson_returns (hash : StringHash) (stale : Value μ) (item : Json) :
    (valueOfJson stale item : Exec μ κ (Value μ)).Returns fun value =>
      value.plain hash = if isJsonNull item then stale.plain hash else item.native hash := by
  cases item with
  | array items => exact Proc.returns_bind allocate_returns fun addr _ => Proc.returns_pure rfl
  | object entries => exact Proc.returns_bind allocate_returns fun addr _ => Proc.returns_pure rfl
  | _ => exact Proc.returns_pure rfl

/-- What the JSON library finds is told, unless it is `null`. -/
theorem foundJson_returns (item : Option Json) :
    (foundJson item : Exec μ κ (Option (Value μ))).Returns fun found =>
      found.map (Value.plain hash) =
        (item.filter fun item => !isJsonNull item).map (Json.native hash) := by
  cases item with
  | none => exact Proc.returns_pure rfl
  | some item =>
    unfold foundJson
    dsimp only
    cases isNull : isJsonNull item with
    | true => 
      refine Proc.returns_pure ?_
      simp [Option.filter, isNull]
    | false =>
      refine Proc.returns_bind (valueOfJson_returns hash .null item) fun value same => ?_
      refine Proc.returns_pure ?_
      simp [Option.filter, isNull, same]

theorem sameFound_iff (found wanted : Option Json) :
    ((found.filter fun item => !isJsonNull item).map (Json.native hash) : Option (Value μ)) =
      wanted.map (Json.native hash) ↔ SameFound μ hash found wanted := by
  cases found with
  | none => cases wanted <;> simp [SameFound]
  | some item => cases wanted <;> cases isNull : isJsonNull item <;> simp [SameFound, isNull]

theorem answer_of_returns {proc : Exec μ κ α} {machine : Machine μ κ} {view : α → β} {result : β}
    (returns : proc.Returns fun value => view value = result) :
    (proc machine).1.value?.map view = some result := by
  obtain ⟨value, after, ran, same⟩ := returns machine
  rw [ran]
  exact congrArg some same

/-- What a conversion leaves under a key. -/
theorem find_nativeMembers (entries : List (Str × Json)) (map : List (Str × Value μ)) (key : Str) :
    StrMap.find hash (Json.nativeMembers hash map entries) key =
      ((lastAlike hash entries key).map (Json.native hash)).or (StrMap.find hash map key) := by
  induction entries generalizing map with
  | nil => rfl
  | cons entry rest ih =>
    obtain ⟨stored, item⟩ := entry
    rw [Json.nativeMembers, ih, StrMap.find_update]
    unfold lastAlike
    rw [List.reverse_cons, List.find?_append]
    cases rest.reverse.find? fun entry => stringEq hash entry.1 key with
    | some last => rfl
    | none =>
      by_cases same : stringEq hash stored key = true
      · simp [same]
      · simp [same]

/-- No member is lost exactly if no two keys are equal, as maps compare keys. -/
theorem length_nativeMembers (entries : List (Str × Json)) (map : List (Str × Value μ)) :
    (Json.nativeMembers hash map entries).length = map.length + entries.length ↔
      (∀ entry ∈ entries, StrMap.find hash map entry.1 = none) ∧
      entries.Pairwise fun left right => stringEq hash left.1 right.1 = false := by
  have lengths := StrMap.length_updateAll hash map
    (entries.map fun entry => (entry.1, (entry.2.native hash : Value μ)))
  unfold StrMap.Apart at lengths
  rw [← Json.nativeMembers_eq, List.length_map, List.forall_mem_map, List.pairwise_map] at lengths
  exact lengths

/-- The visits of a JSON array, after a cell that shows `stale`. -/
def shownItems (hash : StringHash) (stale : Value μ) (index : Nat) : List Json → List (Visit μ)
  | [] => []
  | item :: rest =>
    let cur := if isJsonNull item then stale else item.native hash
    ⟨none, index, cur⟩ :: shownItems hash cur (index + 1) rest

theorem visitItems_returns (hash : StringHash) (items : List Json) (stale : Value μ) (index : Nat) :
    (visitItems stale index items : Exec μ κ _).Returns fun visits =>
      visits.map (Visit.plain hash) = shownItems hash (stale.plain hash) index items := by
  induction items generalizing stale index with
  | nil => exact Proc.returns_pure rfl
  | cons item rest ih =>
    refine Proc.returns_bind (valueOfJson_returns hash stale item) fun cur same => ?_
    refine Proc.returns_bind (ih cur (index + 1)) fun later shown => ?_
    refine Proc.returns_pure ?_
    rw [List.map_cons, shown, shownItems, ← same]
    rfl

/-- The visits of an array that was converted, from an index on. -/
def nativeVisits (hash : StringHash) (index : Nat) (items : List Json) : List (Visit μ) :=
  (items.map (Json.native hash)).mapIdx fun place item => ⟨none, index + place, item⟩

theorem nativeVisits_cons (index : Nat) (item : Json) (rest : List Json) :
    (nativeVisits hash index (item :: rest) : List (Visit μ)) =
      ⟨none, index, item.native hash⟩ :: nativeVisits hash (index + 1) rest := by
  unfold nativeVisits
  rw [List.map_cons, List.mapIdx_cons]
  simp only [Nat.add_zero, Nat.add_assoc, Nat.add_comm 1]

/-- A `null` shows the element before it, so it has to come first. -/
theorem shownItems_eq (items : List Json) (stale : Value μ) (index : Nat) :
    shownItems hash stale index items = nativeVisits hash index items ↔
      (stale = .null → nullsFirst items = true) ∧
      (stale ≠ .null → ∀ item ∈ items, isJsonNull item = false) := by
  induction items generalizing stale index with
  | nil => simp [shownItems, nativeVisits, nullsFirst]
  | cons item rest ih =>
    rw [shownItems, nativeVisits_cons, List.cons.injEq, ih]
    cases isNull : isJsonNull item with
    | true =>
      have native : (item.native hash : Value μ) = .null := item.native_eq_null.mpr isNull
      by_cases empty : stale = .null
      · simp [nullsFirst, isNull, native, empty]
      · simp [isNull, native, empty]
    | false =>
      have native : (item.native hash : Value μ) ≠ .null := fun null =>
        Bool.false_ne_true (isNull.symm.trans (item.native_eq_null.mp null))
      by_cases empty : stale = .null
      · simp [nullsFirst, isNull, native, empty]
      · simp [isNull, native, empty]

/-- The visits of a JSON object, after a cell that shows `stale`. -/
def shownMembers (hash : StringHash) (stale : Value μ) : List (Str × Json) → List (Visit μ)
  | [] => []
  | (key, item) :: rest =>
    let cur := if isJsonNull item then stale else item.native hash
    ⟨some key, 0, cur⟩ :: shownMembers hash cur rest

theorem visitMembers_returns (hash : StringHash) (entries : List (Str × Json)) (stale : Value μ) :
    (visitMembers stale entries : Exec μ κ _).Returns fun visits =>
      visits.map (Visit.plain hash) = shownMembers hash (stale.plain hash) entries := by
  induction entries generalizing stale with
  | nil => exact Proc.returns_pure rfl
  | cons entry rest ih =>
    refine Proc.returns_bind (valueOfJson_returns hash stale entry.2) fun cur same => ?_
    refine Proc.returns_bind (ih cur) fun later shown => ?_
    refine Proc.returns_pure ?_
    rw [List.map_cons, shown, shownMembers, ← same]
    rfl

theorem shownMembers_index (entries : List (Str × Json)) (stale : Value μ) :
    (shownMembers hash stale entries).map Visit.index = List.replicate entries.length 0 := by
  induction entries generalizing stale with
  | nil => rfl
  | cons entry rest ih =>
    rw [shownMembers, List.map_cons, ih]
    rfl

/-- The visits of a map. -/
def entryVisits (entries : List (Str × Value μ)) : List (Visit μ) :=
  entries.mapIdx fun index entry => ⟨some entry.1, index, entry.2⟩

theorem entryVisits_index (entries : List (Str × Value μ)) :
    (entryVisits entries).map Visit.index = List.range entries.length := by
  apply List.ext_getElem
  · simp [entryVisits]
  · intro place first second
    simp [entryVisits]

/-- The index of a JSON object's member stays what it is for the first. -/
theorem shownMembers_eq (entry : Str × Json) (rest : List (Str × Json)) :
    (shownMembers hash .null (entry :: rest) : List (Visit μ)) =
      entryVisits (Json.nativeMembers hash [] (entry :: rest)) ↔ (entry :: rest).length = 1 := by
  constructor
  · intro same
    have indices := congrArg (List.map Visit.index) same
    rw [shownMembers_index, entryVisits_index] at indices
    have lengths := congrArg List.length indices
    rw [List.length_replicate, List.length_range] at lengths
    cases rest with
    | nil => rfl
    | cons second others =>
      have second := congrArg (·[1]?) indices
      rw [← lengths] at second
      simp at second
  · intro single
    obtain rfl := List.length_eq_zero_iff.mp (Nat.succ.inj single)
    cases isNull : isJsonNull entry.2 with
    | true =>
      have native : (entry.2.native hash : Value μ) = .null := entry.2.native_eq_null.mpr isNull
      simp [shownMembers, isNull, Json.nativeMembers, StrMap.update, StrMap.find, native, entryVisits]
    | false =>
      simp [shownMembers, isNull, Json.nativeMembers, StrMap.update, StrMap.find, entryVisits]

theorem map_entryVisits (entries : List (Str × Value μ)) :
    (entryVisits entries).map (Visit.plain hash) =
      entryVisits (entries.map fun entry => (entry.1, entry.2.plain hash)) := by
  apply List.ext_getElem?
  intro place
  simp only [entryVisits, List.getElem?_map, List.getElem?_mapIdx, Option.map_map]
  rfl

theorem map_nativeVisits {values : List (Value μ)} {items : List Json}
    (same : values.map (Value.plain hash) = items.map (Json.native hash)) :
    (values.mapIdx fun index item => (⟨none, index, item⟩ : Visit μ)).map (Visit.plain hash) =
      nativeVisits hash 0 items := by
  unfold nativeVisits
  rw [← same]
  apply List.ext_getElem?
  intro place
  simp only [List.getElem?_map, List.getElem?_mapIdx, Option.map_map, Nat.zero_add]
  rfl

/-- A map that is not being iterated shows its entries. -/
theorem visits_map {machine : Machine μ κ} (idle : machine.vm.inIteration = []) (addr : Nat)
    (entries : List (Str × Value μ)) :
    (visits (.map addr entries) machine).1.value? = some (entryVisits entries) := by
  cases entries with
  | nil => rfl
  | cons entry rest =>
    have begun : (beginIteration (.map addr (entry :: rest)) : Exec μ κ Unit) machine =
        (.ok () { machine with vm := { machine.vm with inIteration := [addr] } }, []) := by
      unfold beginIteration
      change Proc.andThen (readVm Vm.inIteration) _ machine = _
      simp [Proc.andThen, readVm, Proc.read, idle, writeVm, Proc.write]
    change (Proc.andThen (beginIteration (.map addr (entry :: rest))) _ machine).1.value? = _
    unfold Proc.andThen
    rw [begun]
    rfl

section Answers

variable {platform : Platform} {machine : Machine μ κ} {addr : Nat} {native : Value μ}

theorem answer_array (items : List Json) (converted : Converted platform.hash (.array items) native)
    (query : Query) :
    answer platform machine (.user addr (.array items)) query = answer platform machine native query ↔
      AnswersAlike μ platform.hash (.array items) query := by
  obtain ⟨nativeAddr, values, rfl, same⟩ := converted.array
  cases query with
  | count =>
    have lengths := congrArg List.length same
    rw [List.length_map, List.length_map] at lengths
    simp [answer, AnswersAlike, Value.count, Json.count, lengths]
  | find key => exact iff_of_true rfl trivial
  | item index =>
    have lazy : (arrayFind (.user addr (.array items)) index machine).1.value?.map
        (Option.map (Value.plain platform.hash)) =
        some ((((jsonIndex index).bind fun narrow => items[narrow]?).filter
          fun item => !isJsonNull item).map (Json.native platform.hash)) := by
      unfold arrayFind
      exact answer_of_returns (foundJson_returns _)
    have direct : (arrayFind (.array nativeAddr values) index machine).1.value?.map
        (Option.map (Value.plain platform.hash)) = some (items[index]?.map (Json.native platform.hash)) := by
      have here := congrArg (·[index]?) same
      simp only [List.getElem?_map] at here
      rw [← here]
      rfl
    change Answer.found _ = Answer.found _ ↔ _
    rw [lazy, direct, Answer.found.injEq, Option.some.injEq]
    exact sameFound_iff _ _
  | visits =>
    have direct : (visits (.array nativeAddr values) machine).1.value?.map
        (List.map (Visit.plain platform.hash)) = some (nativeVisits platform.hash 0 items) :=
      congrArg some (map_nativeVisits same)
    change Answer.visited _ = Answer.visited _ ↔ _
    rw [direct]
    cases items with
    | nil => exact iff_of_false nofun fun alike => alike.1 rfl
    | cons item rest =>
      have lazy : (visits (.user addr (.array (item :: rest))) machine).1.value?.map
          (List.map (Visit.plain platform.hash)) =
          some (shownItems platform.hash .null 0 (item :: rest)) :=
        answer_of_returns (visitItems_returns platform.hash (item :: rest) .null 0)
      rw [lazy]
      simp [shownItems_eq, AnswersAlike]

theorem answer_object (entries : List (Str × Json)) (idle : machine.vm.inIteration = [])
    (converted : Converted platform.hash (.object entries) native) (query : Query) :
    answer platform machine (.user addr (.object entries)) query =
      answer platform machine native query ↔
      AnswersAlike μ platform.hash (.object entries) query := by
  obtain ⟨nativeAddr, stored, rfl, same⟩ := converted.object
  cases query with
  | count =>
    have lengths := congrArg List.length same
    rw [List.length_map] at lengths
    have distinct : (Json.nativeMembers platform.hash ([] : List (Str × Value μ)) entries).length =
        _ ↔ _ := length_nativeMembers entries []
    rw [← lengths, List.length_nil, Nat.zero_add] at distinct
    change Answer.count (entries.length : Int) = Answer.count (stored.length : Int) ↔ _
    rw [Answer.count.injEq, Int.ofNat_inj, eq_comm, distinct]
    exact and_iff_right fun _ _ => rfl
  | find key =>
    have lazy : (mapFind platform (.user addr (.object entries)) key machine).1.value?.map
        (Option.map (Value.plain platform.hash)) = some (((jsonMember entries key).filter
          fun item => !isJsonNull item).map (Json.native platform.hash)) :=
      answer_of_returns (foundJson_returns _)
    have direct : (mapFind platform (.map nativeAddr stored) key machine).1.value?.map
        (Option.map (Value.plain platform.hash)) =
        some ((lastAlike platform.hash entries key).map (Json.native platform.hash)) := by
      change some ((StrMap.find platform.hash stored key).map (Value.plain platform.hash)) = _
      rw [← StrMap.find_map, same, find_nativeMembers]
      simp [StrMap.find]
    change Answer.found _ = Answer.found _ ↔ _
    rw [lazy, direct, Answer.found.injEq, Option.some.injEq]
    exact sameFound_iff _ _
  | item index => exact iff_of_true rfl trivial
  | visits =>
    have direct : (visits (.map nativeAddr stored) machine).1.value?.map
        (List.map (Visit.plain platform.hash)) =
        some (entryVisits (Json.nativeMembers platform.hash [] entries)) := by
      rw [visits_map idle, Option.map_some, map_entryVisits, same]
    change Answer.visited _ = Answer.visited _ ↔ _
    rw [direct]
    cases entries with
    | nil => exact iff_of_false nofun nofun
    | cons entry rest =>
      have lazy : (visits (.user addr (.object (entry :: rest))) machine).1.value?.map
          (List.map (Visit.plain platform.hash)) =
          some (shownMembers platform.hash .null (entry :: rest)) :=
        answer_of_returns (visitMembers_returns platform.hash (entry :: rest) .null)
      rw [lazy, Answer.visited.injEq, Option.some.injEq]
      exact shownMembers_eq entry rest

/-- A JSON object or array, and the value that it is converted to, which has all it contains
converted too, give the same answer to a query exactly when `AnswersAlike` says so. -/
theorem json_answers_iff (platform : Platform) {json : Json} (collection : json.type ≠ .null)
    (idle : machine.vm.inIteration = []) (query : Query) :
    (∀ before : Machine μ κ, ∃ value after,
      convertJson platform.hash json before = (.ok value after, []) ∧
      Converted platform.hash json value) ∧
    ∀ native, Converted platform.hash json native →
      (answer platform machine (.user addr json) query = answer platform machine native query ↔
        AnswersAlike μ platform.hash json query) := by
  refine ⟨convertJson_returns json, fun native converted => ?_⟩
  cases json with
  | array items => exact answer_array items converted query
  | object entries => exact answer_object entries idle converted query
  | _ => exact absurd rfl collection

end Answers

section Documents

/-- Strings are told apart by their first bytes. -/
def documentPlatform : Platform where
  hash := fun text => (text.headD 0).toUInt32
  numberLong := fun _ => none
  scanLong10 := fun _ => 0
  formatDouble := fun _ => bytes "0"

def documentMachine : Machine Unit Unit := ⟨vmCtor true, []⟩

/-- The second element of an array in an array is found either way. -/
theorem json_answers_nested : ∃ native : Value Unit,
    (convertJson documentPlatform.hash (.array [.int 1, .array [.null]]) documentMachine).1.value? =
      some native ∧
    answer documentPlatform documentMachine (.user 0 (.array [.int 1, .array [.null]])) (.item 1) =
      answer documentPlatform documentMachine native (.item 1) := by
  have document : Json.type (.array [.int 1, .array [.null]]) ≠ .null := nofun
  have idle : documentMachine.vm.inIteration = [] := rfl
  obtain ⟨converts, alike⟩ := json_answers_iff documentPlatform document idle (.item 1)
  obtain ⟨native, after, ran, converted⟩ := converts documentMachine
  refine ⟨native, ?_, (alike native converted).mpr ⟨.array [.null], rfl, rfl, rfl⟩⟩
  rw [ran]
  rfl

/-- A `null` shows the element before it, one that is found is told to be missing, and an
index is cut to an `int`. -/
theorem json_answers_differ :
    answer documentPlatform documentMachine (.user 0 (.array [.int 1, .null])) .visits ≠
      answer documentPlatform documentMachine (.array 0 [.integer 1, .null]) .visits ∧
    answer documentPlatform documentMachine (.user 0 (.object [(bytes "a", .null)]))
        (.find (bytes "a")) ≠
      answer documentPlatform documentMachine (.map 0 [(bytes "a", .null)]) (.find (bytes "a")) ∧
    answer documentPlatform documentMachine (.user 0 (.array [.int 1])) (.item (2 ^ 32)) ≠
      answer documentPlatform documentMachine (.array 0 [.integer 1]) (.item (2 ^ 32)) := by
  have stale : Converted documentPlatform.hash (.array [.int 1, .null])
      (.array 0 [.integer 1, .null] : Value Unit) := rfl
  have missing : Converted documentPlatform.hash (.object [(bytes "a", .null)])
      (.map 0 [(bytes "a", .null)] : Value Unit) := rfl
  have cut : Converted documentPlatform.hash (.array [.int 1])
      (.array 0 [.integer 1] : Value Unit) := rfl
  refine ⟨fun same => ?_, fun same => ?_, fun same => ?_⟩
  · exact nomatch ((answer_array _ stale _).mp same).2
  · obtain ⟨item, found, notNull, -⟩ := (answer_object _ rfl missing _).mp same
    cases found
    cases notNull
  · have alike := (answer_array _ cut _).mp same
    simp [AnswersAlike, SameFound, jsonIndex, isJsonNull] at alike

end Documents

end Exec

end HandlebarsC
