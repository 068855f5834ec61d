import HandlebarsC.Core.Types

/-!
Strings as map keys, and `handlebars_map` as the ordered list of its live entries.
-/

namespace HandlebarsC

/-- `handlebars_string_hash` -/
abbrev StringHash := Str → UInt32

/-- `handlebars_string_eq`: equal length and equal hash. -/
def stringEq (hash : StringHash) (left right : Str) : Bool :=
  left.length == right.length && hash left == hash right

theorem stringEq_iff (hash : StringHash) (left right : Str) :
    stringEq hash left right = true ↔ left.length = right.length ∧ hash left = hash right := by
  simp [stringEq]

@[simp] theorem stringEq_refl (hash : StringHash) (string : Str) :
    stringEq hash string string = true := by
  simp [stringEq]

theorem stringEq_symm {hash : StringHash} (same : stringEq hash left right = true) :
    stringEq hash right left = true := by
  obtain ⟨lengths, hashes⟩ := (stringEq_iff hash left right).mp same
  exact (stringEq_iff hash right left).mpr ⟨lengths.symm, hashes.symm⟩

theorem stringEq_trans {hash : StringHash} (first : stringEq hash left middle = true)
    (second : stringEq hash middle right = true) : stringEq hash left right = true := by
  obtain ⟨lengths, hashes⟩ := (stringEq_iff hash left middle).mp first
  obtain ⟨lengthsAfter, hashesAfter⟩ := (stringEq_iff hash middle right).mp second
  exact (stringEq_iff hash left right).mpr ⟨lengths.trans lengthsAfter, hashes.trans hashesAfter⟩

theorem stringEq_comm (hash : StringHash) (left right : Str) :
    stringEq hash left right = stringEq hash right left :=
  Bool.eq_iff_iff.mpr ⟨stringEq_symm, stringEq_symm⟩

/-- Equal strings are equal to the same strings. -/
theorem stringEq_congr {hash : StringHash} (same : stringEq hash left right = true) (key : Str) :
    stringEq hash key left = stringEq hash key right :=
  Bool.eq_iff_iff.mpr ⟨fun first => stringEq_trans first same,
    fun first => stringEq_trans first (stringEq_symm same)⟩

/-- The live entries of a `handlebars_map`, in vector order. -/
abbrev StrMap (α : Type) := List (Str × α)

namespace StrMap

/-- `handlebars_map_find` -/
def find (hash : StringHash) (map : StrMap α) (key : Str) : Option α :=
  (map.find? fun entry => stringEq hash entry.1 key).map (·.2)

/-- `handlebars_map_add`, which throws on a key that is present. -/
def add (hash : StringHash) (map : StrMap α) (key : Str) (value : α) : Except Error (StrMap α) :=
  match find hash map key with
  | some _ => .error ⟨.error, bytes "Failed to add to hash table", LocInfo.zero⟩
  | none => .ok (map ++ [(key, value)])

/-- `handlebars_map_update`: an entry that is present keeps its key and place. -/
def update (hash : StringHash) (map : StrMap α) (key : Str) (value : α) : StrMap α :=
  match find hash map key with
  | some _ => map.map fun entry => if stringEq hash entry.1 key then (entry.1, value) else entry
  | none => map ++ [(key, value)]

/-- `handlebars_map_remove` -/
def remove (hash : StringHash) (map : StrMap α) (key : Str) : StrMap α :=
  map.eraseP fun entry => stringEq hash entry.1 key

theorem find_some {hash : StringHash} (found : find hash map key = some value) :
    ∃ stored, (stored, value) ∈ map ∧ stringEq hash stored key = true := by
  unfold find at found
  obtain ⟨⟨stored, held⟩, present, rfl⟩ := Option.map_eq_some_iff.mp found
  exact ⟨stored, List.mem_of_find?_eq_some present,
    by simpa using List.find?_some present⟩

theorem add_ok {hash : StringHash} (success : add hash map key value = .ok after) :
    find hash map key = none ∧ after = map ++ [(key, value)] := by
  unfold add at success
  split at success
  · cases success
  · rename_i absent
    cases success
    exact ⟨absent, rfl⟩

theorem find_cons (hash : StringHash) (entry : Str × α) (map : StrMap α) (key : Str) :
    find hash (entry :: map) key =
      if stringEq hash entry.1 key then some entry.2 else find hash map key := by
  unfold find
  rw [List.find?_cons]
  split <;> simp_all

theorem find_congr {hash : StringHash} (same : stringEq hash left right = true)
    (map : StrMap α) : find hash map left = find hash map right := by
  unfold find
  simp only [fun key => stringEq_congr same key]

/-- Of a map without equal keys every entry is found. -/
theorem find_of_mem {hash : StringHash} {map : StrMap α}
    (distinct : map.Pairwise fun left right => stringEq hash left.1 right.1 = false)
    (member : entry ∈ map) : find hash map entry.1 = some entry.2 := by
  induction map with
  | nil => cases member
  | cons first rest ih =>
    obtain ⟨apart, distinctRest⟩ := List.pairwise_cons.mp distinct
    rw [find_cons]
    rcases List.mem_cons.mp member with rfl | later
    · simp
    · rw [apart entry later]
      exact ih distinctRest later

theorem find_snoc (hash : StringHash) (map : StrMap α) (key : Str) (value : α) (other : Str) :
    find hash (map ++ [(key, value)]) other =
      (find hash map other).or (if stringEq hash key other then some value else none) := by
  induction map with
  | nil => exact find_cons hash (key, value) [] other
  | cons entry rest ih =>
    rw [List.cons_append, find_cons, find_cons, ih]
    split <;> rfl

theorem find_assign (hash : StringHash) (map : StrMap α) (key : Str) (value : α) (other : Str) :
    find hash (map.map fun entry => if stringEq hash entry.1 key then (entry.1, value) else entry)
        other =
      if stringEq hash key other then (find hash map other).map fun _ => value
      else find hash map other := by
  induction map with
  | nil => split <;> rfl
  | cons entry rest ih =>
    rw [List.map_cons, find_cons, find_cons, ih]
    by_cases same : stringEq hash key other = true
    · have matched := stringEq_congr same entry.1
      by_cases here : stringEq hash entry.1 other = true
      · simp [same, here, matched]
      · simp [same, here, matched]
    · by_cases here : stringEq hash entry.1 key = true
      · have elsewhere : ¬stringEq hash entry.1 other = true :=
          fun found => same (stringEq_trans (stringEq_symm here) found)
        simp [same, here, elsewhere]
      · simp [same, here]

theorem find_map (hash : StringHash) (change : α → β) (map : StrMap α) (key : Str) :
    find hash (map.map fun entry => (entry.1, change entry.2)) key =
      (find hash map key).map change := by
  induction map with
  | nil => rfl
  | cons entry rest ih =>
    rw [List.map_cons, find_cons, find_cons, ih]
    split <;> rfl

theorem map_update (hash : StringHash) (change : α → β) (map : StrMap α) (key : Str) (value : α) :
    (update hash map key value).map (fun entry => (entry.1, change entry.2)) =
      update hash (map.map fun entry => (entry.1, change entry.2)) key (change value) := by
  unfold update
  rw [find_map]
  cases find hash map key with
  | none => simp
  | some old =>
    simp only [Option.map_some, List.map_map]
    apply List.map_congr_left
    intro entry _
    dsimp only [Function.comp_apply]
    split <;> rfl

/-- An update adds at most its own value. -/
theorem mem_update {hash : StringHash} {map : StrMap α} {entry : Str × α}
    (member : entry ∈ update hash map key value) :
    entry.2 = value ∨ ∃ old ∈ map, old.2 = entry.2 := by
  unfold update at member
  cases found : find hash map key with
  | none =>
    rw [found] at member
    rcases List.mem_append.mp member with old | new
    · exact .inr ⟨entry, old, rfl⟩
    · exact .inl (congrArg Prod.snd (List.mem_singleton.mp new))
  | some present =>
    rw [found] at member
    obtain ⟨old, there, rfl⟩ := List.mem_map.mp member
    split
    · exact .inl rfl
    · exact .inr ⟨old, there, rfl⟩

/-- An update adds an entry if the key has none. -/
theorem length_update (hash : StringHash) (map : StrMap α) (key : Str) (value : α) :
    (update hash map key value).length =
      if (find hash map key).isSome then map.length else map.length + 1 := by
  unfold update
  cases find hash map key <;> simp

/-- What an update leaves under each key. -/
theorem find_update (hash : StringHash) (map : StrMap α) (key : Str) (value : α) (other : Str) :
    find hash (update hash map key value) other =
      if stringEq hash key other then some value else find hash map other := by
  unfold update
  cases found : find hash map key with
  | none =>
    rw [find_snoc]
    by_cases same : stringEq hash key other = true
    · simp [same, ← find_congr same map, found]
    · simp [same]
  | some old =>
    rw [find_assign]
    by_cases same : stringEq hash key other = true
    · simp [same, ← find_congr same map, found]
    · simp [same]

theorem find_eq_none {hash : StringHash} {map : StrMap α} {key : Str} :
    find hash map key = none ↔ ∀ entry ∈ map, stringEq hash entry.1 key = false := by
  unfold find
  rw [Option.map_eq_none_iff, List.find?_eq_none]
  simp only [Bool.not_eq_true]

/-- No two keys are equal, as maps compare keys. -/
def Apart (hash : StringHash) (map : StrMap α) : Prop :=
  map.Pairwise fun left right => stringEq hash left.1 right.1 = false

theorem Apart.map {hash : StringHash} {map : StrMap α} (apart : Apart hash map)
    (change : α → β) : Apart hash (map.map fun entry => (entry.1, change entry.2)) :=
  List.pairwise_map.mpr apart

/-- Only the keys decide whether they are apart, and which ones are missing. -/
theorem apart_congr {hash : StringHash} {map : StrMap α} {other : StrMap β}
    (keys : map.map Prod.fst = other.map Prod.fst) : Apart hash map ↔ Apart hash other := by
  have same := congrArg (List.Pairwise fun left right => stringEq hash left right = false) keys
  rw [List.pairwise_map, List.pairwise_map] at same
  exact iff_of_eq same

/-- `handlebars_map_update` with each entry of another map, in their order. -/
def updateAll (hash : StringHash) (map other : StrMap α) : StrMap α :=
  other.foldl (fun map entry => update hash map entry.1 entry.2) map

theorem updateAll_cons (hash : StringHash) (map : StrMap α) (entry : Str × α) (rest : StrMap α) :
    updateAll hash map (entry :: rest) =
      updateAll hash (update hash map entry.1 entry.2) rest := rfl

theorem length_updateAll_le (hash : StringHash) (map other : StrMap α) :
    (updateAll hash map other).length ≤ map.length + other.length := by
  induction other generalizing map with
  | nil => exact Nat.le_refl _
  | cons entry rest ih =>
    have step := length_update hash map entry.1 entry.2
    have later := ih (update hash map entry.1 entry.2)
    rw [updateAll_cons, List.length_cons]
    split at step <;> omega

/-- No entry is lost exactly if no two keys are equal. -/
theorem length_updateAll (hash : StringHash) (map other : StrMap α) :
    (updateAll hash map other).length = map.length + other.length ↔
      (∀ entry ∈ other, find hash map entry.1 = none) ∧ Apart hash other := by
  induction other generalizing map with
  | nil => simp [updateAll, Apart]
  | cons entry rest ih =>
    have step := length_update hash map entry.1 entry.2
    have most := length_updateAll_le hash (update hash map entry.1 entry.2) rest
    have later := ih (update hash map entry.1 entry.2)
    unfold Apart at later ⊢
    rw [updateAll_cons, List.length_cons, List.pairwise_cons, List.forall_mem_cons]
    cases found : find hash map entry.1 with
    | some old =>
      rw [found, Option.isSome_some, if_pos rfl] at step
      simp only [reduceCtorEq, false_and, iff_false]
      omega
    | none =>
      rw [found, Option.isSome_none, if_neg Bool.false_ne_true] at step
      have count : map.length + (rest.length + 1) =
          (update hash map entry.1 entry.2).length + rest.length := by omega
      rw [count, later]
      simp only [find_update]
      constructor
      · rintro ⟨fresh, distinct⟩
        have apart : ∀ other ∈ rest, stringEq hash entry.1 other.1 = false ∧
            find hash map other.1 = none := by
          intro other member
          have absent := fresh other member
          split at absent
          · cases absent
          · rename_i different
            exact ⟨Bool.eq_false_iff.mpr different, absent⟩
        exact ⟨⟨trivial, fun other member => (apart other member).2⟩,
          fun other member => (apart other member).1, distinct⟩
      · rintro ⟨⟨-, fresh⟩, apart, distinct⟩
        refine ⟨fun other member => ?_, distinct⟩
        rw [apart other member, if_neg Bool.false_ne_true]
        exact fresh other member

end StrMap

end HandlebarsC
