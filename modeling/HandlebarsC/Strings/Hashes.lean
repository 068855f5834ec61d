import HandlebarsC.Foundation.Run
import HandlebarsC.Strings.Equality
import HandlebarsC.Strings.Shared

/-!
The hash that a string keeps, through every sequence of operations on strings.
-/

namespace HandlebarsC.Strings

open Memory Transition

/-- `hbs_str_hash`, which keeps the hash in the string. -/
def Object.strHash (hash : StringHash) (string : Object) : Object :=
  if string.hash = 0 then { string with hash := hash string.text } else string

namespace Heap

/-- `hbs_str_hash` -/
def strHash (hash : StringHash) (heap : Heap) (string : Nat) : Option (UInt32 × Heap) :=
  (load heap string).map fun object =>
    ((object.strHash hash).hash, put heap string (some (object.strHash hash)))

/-- `handlebars_string_eq` -/
def eq (hash : StringHash) (heap : Heap) (string1 string2 : Nat) : Option (Bool × Heap) :=
  (load heap string1).bind fun object1 =>
  (load heap string2).bind fun object2 =>
    if object1.len ≠ object2.len then some (false, heap)
    else
      (strHash hash heap string1).bind fun (hash1, heap) =>
      (strHash hash heap string2).map fun (hash2, heap) => (hash1 == hash2, heap)

/-- `handlebars_string_indent` -/
def indent (heap : Heap) (string : Nat) (indentStr : Str) : Option (Nat × Heap) :=
  (load heap string).bind fun object =>
    let newString := Object.init object.len
    let newString := if object.refcount > 0 then newString.addref else newString
    indentAppend (alloc heap newString) heap.length string indentStr

/-- `handlebars_str_replace` -/
def strReplace (heap : Heap) (string : Nat) (search replacement : Str) : Option Heap :=
  (load heap string).bind fun object =>
    if search.length = 0 || object.len = 0 then some heap
    else (Strings.strReplace object search replacement).map (alloc heap)

end Heap

/-- What a program does with strings. -/
inductive Operation where
  | ctor (text : Str)
  | copyCtor (string : Nat)
  | addref (string : Nat)
  | delref (string : Nat)
  | mutate (string : Nat) (mutation : Mutation)
  | strReplace (string : Nat) (search replacement : Str)
  | addcslashes (string : Nat) (what : Str)
  | implode (sep : Str) (parts : List Nat)
  | indent (string : Nat) (indentStr : Str)
  | strHash (string : Nat)
  | eq (string1 string2 : Nat)
  deriving DecidableEq, Repr

/-- The strings behind an operation. -/
def Operation.apply (hash : StringHash) (heap : Heap) : Operation → Option Heap
  | .ctor text => some (alloc heap (.ctor text))
  | .copyCtor string => (load heap string).map fun object => alloc heap object.copyCtor
  | .addref string => (load heap string).map fun object => put heap string (some object.addref)
  | .delref string => heap.delref string
  | .mutate string mutation => (mutation.apply heap string).map Prod.snd
  | .strReplace string search replacement => heap.strReplace string search replacement
  | .addcslashes string what =>
    (load heap string).bind fun object => (object.addcslashes what).map (alloc heap)
  | .implode sep parts =>
    (parts.mapM (load heap)).bind fun parts =>
      (Object.implode sep (parts.map Object.text)).map (alloc heap)
  | .indent string indentStr => (heap.indent string indentStr).map Prod.snd
  | .strHash string => (heap.strHash hash string).map Prod.snd
  | .eq string1 string2 => (heap.eq hash string1 string2).map Prod.snd

def Step (hash : StringHash) (heap : Heap) (operation : Operation) (next : Heap) : Prop :=
  operation.apply hash heap = some next

/-- The loop of `map_find_entry` for a key that keeps a hash. -/
def findLoop (hash : StringHash) (map : Map α) (key : Object) (keyHash : UInt32) (start : Nat) :
    Nat → Nat → Map.FindResult → MapResult Map.FindResult
  | 0, _, ret => .ok ret
  | left + 1, i, ret =>
    let pos := (start + i) % map.tableCapacity
    match map.table[pos]? with
    | some .null => .ok { ret with emptyFound := true, emptyOffset := pos }
    | some .tombstone =>
      findLoop hash map key keyHash start left (i + 1)
        (if ret.emptyFound then ret else { ret with emptyOffset := pos })
    | some (.entry index) =>
      match map.entryAt index with
      | some entry =>
        if entry.key.length == key.len && hash entry.key == keyHash then
          .ok { ret with entry := some (pos, index) }
        else findLoop hash map key keyHash start left (i + 1) ret
      | none => .error .crashed
    | none => .error .crashed

/-- `handlebars_map_find` with a key that keeps a hash. -/
def mapFind (hash : StringHash) (map : Map α) (key : Object) : MapResult (Option α) := do
  let keyHash := (key.strHash hash).hash
  let o ← findLoop hash map key keyHash (keyHash.toNat % map.tableCapacity) map.tableCapacity 0
    ⟨false, 0, none⟩
  .ok ((o.entry.bind fun place => map.entryAt place.2).map MapEntry.value)

/-- The hash that a string keeps is none, or that of its text. -/
def Object.HashCurrent (hash : StringHash) (string : Object) : Prop :=
  string.hash = 0 ∨ string.hash = hash string.text

/-- What is promised of the strings of a program: the hash each keeps is none, or that of its
text, so that equality tests and the lookups in a map answer as for new strings. -/
structure HashesCurrent (hash : StringHash) (heap : Heap) : Prop where
  hashes : ∀ string object, load heap string = some object → object.HashCurrent hash
  eq : ∀ string1 string2 object1 object2, load heap string1 = some object1 →
    load heap string2 = some object2 →
      (heap.eq hash string1 string2).map Prod.fst = some (stringEq hash object1.text object2.text)
  find : ∀ string object, load heap string = some object → ∀ (α : Type) (map : Map α),
    mapFind hash map object = map.find hash object.text

/-- The text that the other holders of a string see when its slashes have been stripped. -/
def strippedBehind (text : Str) : Str :=
  (Parser.stripcslashes text ++
    0 :: text.drop ((Parser.stripcslashes text).length + 1)).take text.length

/-- When a string keeps its hash current although the operation does not reset it: it has none,
or the text it becomes has the same. -/
def Mutation.KeepsHash (hash : StringHash) (object : Object) : Mutation → Prop
  | .ltrim what => object.hash ≠ 0 →
    hash (object.text.dropWhile (Object.isTrimmed what)) = hash object.text
  | .rtrim what => object.hash ≠ 0 →
    hash (object.text.rdropWhile what.contains) = hash object.text
  | .stripcslashes => object.hash ≠ 0 → 1 < object.refcount →
    hash (strippedBehind object.text) = hash object.text
  | _ => True

def Operation.KeepsHash (hash : StringHash) (heap : Heap) : Operation → Prop
  | .mutate string mutation =>
    ∀ object, load heap string = some object → mutation.KeepsHash hash object
  | _ => True

variable {hash : StringHash} {heap after : Heap} {string returned : Nat} {object final : Object}
  {operation : Heap → Nat → Option (Nat × Heap)} {trims : Bool} {edit : Object → Option Object}
  {result : Option Str}

/-! ### Strings whose hashes are current -/

theorem Object.HashCurrent.kept (current : object.HashCurrent hash) (same : final.hash = object.hash)
    (text : final.text = object.text) : final.HashCurrent hash := by
  unfold HashCurrent
  rw [same, text]
  exact current

@[simp] theorem Object.text_strHash (hash : StringHash) (object : Object) :
    (object.strHash hash).text = object.text := by
  unfold strHash
  split <;> rfl

/-- What `hbs_str_hash` returns is the hash of the text, if the hash that is kept is. -/
theorem Object.HashCurrent.strHash (current : object.HashCurrent hash) :
    (object.strHash hash).hash = hash object.text := by
  unfold Object.strHash
  split
  · rfl
  · rename_i kept
    exact current.resolve_left kept

/-- The hashes that strings keep are current. -/
def Current (hash : StringHash) (heap : Heap) : Prop :=
  ∀ string object, load heap string = some object → object.HashCurrent hash

theorem Current.put (current : Current hash heap)
    (new : ∀ object, placed = some object → object.HashCurrent hash) (string : Nat) :
    Current hash (put heap string placed) :=
  fun _ _ present => forall_put current new present

theorem Current.alloc (current : Current hash heap) (new : object.HashCurrent hash) :
    Current hash (alloc heap object) :=
  fun _ _ present => forall_alloc current new present

theorem Object.HashCurrent.delref (current : object.HashCurrent hash)
    (left : object.delref = some final) : final.HashCurrent hash := by
  unfold Object.delref at left
  split_ifs at left
  · cases left
    exact current
  · cases left
    exact current.kept rfl rfl

theorem Current.delref (current : Current hash heap) (released : heap.delref string = some after) :
    Current hash after := by
  obtain ⟨object, present, rfl⟩ := Option.map_eq_some_iff.mp released
  exact current.put (fun _ left => (current _ _ present).delref left) _

theorem Current.strHash (current : Current hash heap)
    (ran : heap.strHash hash string = some (value, after)) : Current hash after := by
  obtain ⟨object, present, same⟩ := Option.map_eq_some_iff.mp ran
  cases same
  refine current.put (fun _ kept => ?_) _
  cases kept
  exact .inr ((current _ _ present).strHash.trans (congrArg hash (object.text_strHash hash).symm))

theorem Current.eq (current : Current hash heap)
    (ran : heap.eq hash string1 string2 = some (value, after)) : Current hash after := by
  obtain ⟨object1, -, ran⟩ := Option.bind_eq_some_iff.mp ran
  obtain ⟨object2, -, ran⟩ := Option.bind_eq_some_iff.mp ran
  split at ran
  · cases ran
    exact current
  · obtain ⟨⟨hash1, middle⟩, first, ran⟩ := Option.bind_eq_some_iff.mp ran
    obtain ⟨⟨hash2, last⟩, second, same⟩ := Option.map_eq_some_iff.mp ran
    cases same
    exact (current.strHash first).strHash second

/-- Equality tests answer as for new strings. -/
theorem Current.eq_answer (current : Current hash heap) (first : load heap string1 = some object1)
    (second : load heap string2 = some object2) :
    (heap.eq hash string1 string2).map Prod.fst = some (stringEq hash object1.text object2.text) := by
  unfold Heap.eq
  rw [first, second, Option.bind_some, Option.bind_some]
  unfold stringEq
  rw [object1.length_text, object2.length_text]
  split
  · rename_i different
    simp [different]
  · rename_i same
    have hash1 := (current _ _ first).strHash
    have there : ∃ object, load (Memory.put heap string1 (some (object1.strHash hash))) string2 =
        some object ∧ (object.strHash hash).hash = hash object2.text := by
      by_cases itself : string2 = string1
      · subst itself
        obtain rfl := Option.some.inj (first.symm.trans second)
        refine ⟨_, load_put_self first _, ?_⟩
        have kept : (object1.strHash hash).HashCurrent hash :=
          .inr (hash1.trans (congrArg hash (object1.text_strHash hash).symm))
        rw [kept.strHash, Object.text_strHash]
      · exact ⟨object2, (load_put_other itself _ _).trans second, (current _ _ second).strHash⟩
    obtain ⟨object, held, hash2⟩ := there
    simp [Heap.strHash, first, held, hash1, hash2, not_not.mp same]

theorem findLoop_eq (map : Map α) (key : Object) (start left i : Nat) (ret : Map.FindResult) :
    findLoop hash map key (hash key.text) start left i ret =
      Map.findLoop hash map key.text start left i ret := by
  induction left generalizing i ret with
  | zero => rfl
  | succ left ih =>
    rw [findLoop, Map.findLoop]
    cases map.table[(start + i) % map.tableCapacity]? with
    | none => rfl
    | some slot =>
      cases slot with
      | null => rfl
      | tombstone => exact ih ..
      | entry index =>
        dsimp only
        cases map.entryAt index with
        | none => rfl
        | some entry => simp only [ih, stringEq, key.length_text]

/-- The lookups in a map answer as for new strings. -/
theorem Object.HashCurrent.mapFind (current : object.HashCurrent hash) (map : Map α) :
    mapFind hash map object = map.find hash object.text := by
  unfold Strings.mapFind Map.find Map.findEntry
  rw [current.strHash]
  simp only [findLoop_eq]

theorem Current.hashesCurrent (current : Current hash heap) : HashesCurrent hash heap where
  hashes := current
  eq _ _ _ _ first second := current.eq_answer first second
  find string object present _ map := (current string object present).mapFind map

/-! ### One step -/

/-- Behind an operation that separates, the hash that is kept by what it has edited decides. -/
theorem Separates.current (separates : Separates operation trims object.text edit result)
    (present : load heap string = some object) (ran : operation heap string = some (returned, after))
    (current : Current hash heap) :
    ∃ final, load after returned = some final ∧ result = some final.text ∧
      (final.hash = 0 ∧ trims = false ∨
        final.hash = object.hash ∧ (trims = true ∨ final.text = object.text)) ∧
      (final.HashCurrent hash → Current hash after) := by
  by_cases single : object.refcount ≤ 1
  · obtain ⟨final, edited, written⟩ :=
      Option.map_eq_some_iff.mp ((separates.alone present single).symm.trans ran)
    cases written
    refine ⟨final, load_put_self present _, separates.edited _ _ rfl edited,
      separates.hash _ _ rfl edited, fun new => current.put (fun _ same => ?_) _⟩
    cases same
    exact new
  · have several : 1 < object.refcount := Nat.lt_of_not_le single
    rcases separates.apply heap string object present rfl with edits | ⟨stays, same⟩
    · rw [edits, Heap.separateUpdate_copy present several] at ran
      obtain ⟨final, edited, written⟩ := Option.map_eq_some_iff.mp ran
      cases written
      have apart := Nat.ne_of_lt (load_lt present)
      have copied : load (put (alloc heap object.separated) string object.delref) heap.length =
          some object.separated :=
        (load_put_other apart.symm _ _).trans (load_alloc_self heap _)
      have hashes := separates.hash _ _ object.text_separated edited
      rw [object.hash_separated, object.text_separated] at hashes
      refine ⟨final, load_put_self copied _, separates.edited _ _ object.text_separated edited,
        hashes, fun new => ?_⟩
      have old := current string object present
      have separated : Current hash (put (alloc heap object.separated) string object.delref) :=
        (current.alloc (old.kept object.hash_separated object.text_separated)).put
          (fun _ left => old.delref left) _
      refine separated.put (fun _ same => ?_) _
      cases same
      exact new
    · cases stays.symm.trans ran
      exact ⟨object, present, separates.edited _ _ rfl same, separates.hash _ _ rfl same,
        fun _ => current⟩

/-- An operation that separates and is not a trim keeps all hashes current. -/
theorem Separates.keeps (separates : Separates operation false object.text edit result)
    (present : load heap string = some object) (ran : operation heap string = some (returned, after))
    (current : Current hash heap) : Current hash after := by
  obtain ⟨final, -, -, hashes, keep⟩ := separates.current present ran current
  apply keep
  rcases hashes with ⟨reset, -⟩ | ⟨kept, trims | text⟩
  · exact .inl reset
  · cases trims
  · exact (current string object present).kept kept text

/-- A trim keeps them current if what is left has the hash, or none is kept. -/
theorem Separates.trim_iff (separates : Separates operation true object.text edit (some text))
    (present : load heap string = some object) (ran : operation heap string = some (returned, after))
    (current : Current hash heap) :
    Current hash after ↔ (object.hash ≠ 0 → hash text = hash object.text) := by
  obtain ⟨final, held, written, hashes, keep⟩ := separates.current present ran current
  cases written
  have kept : final.hash = object.hash := by
    rcases hashes with ⟨-, trims⟩ | ⟨kept, -⟩
    · cases trims
    · exact kept
  have old := current string object present
  constructor
  · intro behind some
    have new := (behind _ _ held).resolve_left (kept ▸ some)
    exact new.symm.trans (kept.trans (old.resolve_left some))
  · intro same
    apply keep
    by_cases none : object.hash = 0
    · exact .inl (kept.trans none)
    · exact .inr (kept.trans ((old.resolve_left none).trans (same none).symm))

theorem Current.indentAppend (current : Current hash heap)
    (ran : heap.indentAppend string input indent = some (returned, after)) : Current hash after := by
  obtain ⟨text, -, ran⟩ := Option.bind_eq_some_iff.mp ran
  obtain ⟨⟨appendTo, middle⟩, edits, ran⟩ := Option.bind_eq_some_iff.mp ran
  dsimp only at ran
  split at ran
  · cases ran
  · obtain ⟨last, released, same⟩ := Option.map_eq_some_iff.mp ran
    cases same
    obtain ⟨⟨place, separated⟩, separation, -⟩ := Option.bind_eq_some_iff.mp edits
    obtain ⟨object, present, -⟩ := Option.map_eq_some_iff.mp separation
    obtain ⟨result, separates⟩ := indentAppend_separates object.text text.text indent
    exact (separates.keeps present edits current).delref released

theorem strippedBehind_eq (object : Object) :
    (Parser.stripcslashes object.text ++
      0 :: object.val.drop ((Parser.stripcslashes object.text).length + 1)).take object.len =
        strippedBehind object.text := by
  have rest : object.text.drop ((Parser.stripcslashes object.text).length + 1) =
      (object.val.drop ((Parser.stripcslashes object.text).length + 1)).take
        (object.len - ((Parser.stripcslashes object.text).length + 1)) :=
    List.drop_take
  rw [strippedBehind, rest, object.length_text, List.take_append, List.take_append]
  congr 1
  cases size : object.len - (Parser.stripcslashes object.text).length with
  | zero => rfl
  | succ more =>
    have same : object.len - ((Parser.stripcslashes object.text).length + 1) = more := by omega
    rw [same, List.take_succ_cons, List.take_succ_cons, List.take_take, Nat.min_self]

theorem Current.stripcslashes_iff (current : Current hash heap)
    (present : load heap string = some object)
    (ran : heap.stripcslashes string = some (returned, after)) :
    Current hash after ↔ (object.hash ≠ 0 → 1 < object.refcount →
      hash (strippedBehind object.text) = hash object.text) := by
  have old := current string object present
  by_cases several : 1 < object.refcount
  · obtain ⟨_, final, left, expected, copy, -, reset, rest, text, -, kept, others⟩ :=
      stripcslashes_shared present several
    cases ran.symm.trans expected
    rw [strippedBehind_eq] at text
    constructor
    · intro behind some _
      have new := (behind _ _ rest).resolve_left (kept ▸ some)
      rw [← text, ← new, kept, old.resolve_left some]
    · intro same addr found there
      by_cases copied : addr = heap.length
      · rw [copied, copy] at there
        cases there
        exact .inl reset
      · by_cases original : addr = string
        · rw [original, rest] at there
          cases there
          by_cases none : object.hash = 0
          · exact .inl (kept.trans none)
          · exact .inr (by rw [kept, text, same none several, old.resolve_left none])
        · rw [others addr original copied] at there
          exact current addr found there
  · obtain ⟨_, final, expected, held, -, reset, others⟩ :=
      stripcslashes_alone present (Nat.le_of_not_lt several)
    cases ran.symm.trans expected
    refine iff_of_true ?_ fun _ shared => absurd shared several
    intro addr found there
    by_cases itself : addr = string
    · rw [itself, held] at there
      cases there
      exact .inl reset
    · rw [others addr itself] at there
      exact current addr found there

theorem Current.strReduce (current : Current hash heap)
    (ran : heap.strReduce string search replacement = some (returned, after)) :
    Current hash after := by
  obtain ⟨object, present, ran⟩ := Option.bind_eq_some_iff.mp ran
  split at ran
  · cases ran
    exact current
  · rename_i guards
    obtain ⟨⟨separated, middle⟩, separation, ran⟩ := Option.bind_eq_some_iff.mp ran
    dsimp only at ran
    split at ran
    · rename_i itself
      by_cases several : 1 < object.refcount
      · rw [Heap.separate_shared present several] at separation
        cases separation
        exact absurd itself (Nat.ne_of_gt (load_lt present))
      · rw [Heap.separate_alone present (Nat.le_of_not_lt several)] at separation
        cases separation
        rw [Heap.update_eq present] at ran
        obtain ⟨final, reduced, written⟩ := Option.map_eq_some_iff.mp ran
        cases written
        refine current.put (fun _ same => ?_) _
        cases same
        rw [Strings.strReduce, if_neg guards] at reduced
        obtain ⟨last, -, rfl⟩ := Option.map_eq_some_iff.mp reduced
        exact .inl rfl
    · cases ran

theorem separateUpdate_present (ran : heap.separateUpdate string edit = some found) :
    ∃ object, load heap string = some object := by
  obtain ⟨_, separation, -⟩ := Option.bind_eq_some_iff.mp ran
  obtain ⟨object, present, -⟩ := Option.map_eq_some_iff.mp separation
  exact ⟨object, present⟩

/-- An operation with a result has looked at its string, or has nothing to append. -/
theorem Mutation.apply_present (mutation : Mutation)
    (ran : mutation.apply heap string = some (returned, after)) :
    (∃ object, load heap string = some object) ∨
      after = heap ∧ ∃ str, mutation = .htmlspecialcharsAppend str := by
  have read {next : Object → Option (Nat × Heap)}
      (ran : (load heap string).bind next = some (returned, after)) :
      ∃ object, load heap string = some object := by
    obtain ⟨object, present, -⟩ := Option.bind_eq_some_iff.mp ran
    exact ⟨object, present⟩
  cases mutation with
  | append | truncate => exact .inl (separateUpdate_present ran)
  | extend | compact | strReduce | stripcslashes | vasprintfAppend | ltrim | rtrim =>
    exact .inl (read ran)
  | htmlspecialcharsAppend str =>
    by_cases nothing : str.length = 0
    · cases (if_pos nothing).symm.trans ran
      exact .inr ⟨rfl, str, rfl⟩
    · exact .inl (separateUpdate_present ((if_neg nothing).symm.trans ran))
  | indentAppend input indent =>
    obtain ⟨text, -, ran⟩ := Option.bind_eq_some_iff.mp ran
    obtain ⟨_, edits, -⟩ := Option.bind_eq_some_iff.mp ran
    exact .inl (separateUpdate_present edits)

theorem Current.mutate_iff (current : Current hash heap) (mutation : Mutation)
    (ran : mutation.apply heap string = some (returned, after)) :
    Current hash after ↔ (Operation.mutate string mutation).KeepsHash hash heap := by
  rcases mutation.apply_present ran with ⟨object, present⟩ | ⟨rfl, str, rfl⟩
  · have held : (Operation.mutate string mutation).KeepsHash hash heap ↔
        mutation.KeepsHash hash object := by
      constructor
      · intro all
        exact all object present
      · intro here other same
        cases present.symm.trans same
        exact here
    have others (quiet : mutation.reduces object.text = false) (slashes : mutation ≠ .stripcslashes)
        (indents : ∀ input indent, mutation ≠ .indentAppend input indent)
        (stays : mutation.trims = false) : Current hash after := by
      obtain ⟨edit, result, separates⟩ := mutation_separates mutation object.text quiet slashes indents
      rw [stays] at separates
      exact separates.keeps present ran current
    rw [held]
    cases mutation with
    | ltrim what => exact (ltrim_separates object.text what).trim_iff present ran current
    | rtrim what => exact (rtrim_separates object.text what).trim_iff present ran current
    | stripcslashes => exact current.stripcslashes_iff present ran
    | indentAppend input indent => exact iff_of_true (current.indentAppend ran) trivial
    | strReduce search replacement => exact iff_of_true (current.strReduce ran) trivial
    | _ => exact iff_of_true (others rfl nofun nofun rfl) trivial
  · exact iff_of_true current fun _ _ => trivial

theorem implodeLoop_hash (reset : object.hash = 0)
    (ran : Object.implodeLoop sep object parts = some final) : final.hash = 0 := by
  induction parts generalizing object with
  | nil =>
    cases ran
    exact reset
  | cons part parts ih =>
    obtain ⟨next, -, ran⟩ := Option.bind_eq_some_iff.mp ran
    obtain ⟨last, appended, ran⟩ := Option.bind_eq_some_iff.mp ran
    exact ih (appendUnsafe_hash appended) ran

theorem implode_hash (ran : Object.implode sep parts = some final) : final.hash = 0 := by
  cases parts with
  | nil =>
    cases ran
    rfl
  | cons part parts =>
    unfold Object.implode at ran
    dsimp only at ran
    split at ran
    · obtain ⟨first, appended, ran⟩ := Option.bind_eq_some_iff.mp ran
      exact implodeLoop_hash (appendUnsafe_hash appended) ran
    · cases ran
      rfl

theorem Current.strReplace (current : Current hash heap)
    (ran : heap.strReplace string search replacement = some after) : Current hash after := by
  obtain ⟨object, present, ran⟩ := Option.bind_eq_some_iff.mp ran
  split at ran
  · cases ran
    exact current
  · rename_i guards
    obtain ⟨built, replaced, rfl⟩ := Option.map_eq_some_iff.mp ran
    rw [Strings.strReplace, if_neg guards] at replaced
    obtain ⟨⟨lastTok, newString⟩, -, replaced⟩ := Option.bind_eq_some_iff.mp replaced
    obtain ⟨last, -, rfl⟩ := Option.map_eq_some_iff.mp replaced
    exact current.alloc (.inl (Object.hash_compact _))

theorem Current.indent (current : Current hash heap)
    (ran : heap.indent string indentStr = some (returned, after)) : Current hash after := by
  obtain ⟨object, present, ran⟩ := Option.bind_eq_some_iff.mp ran
  dsimp only at ran
  refine Current.indentAppend (current.alloc (.inl ?_)) ran
  split
  · rw [Object.hash_addref]
    rfl
  · rfl

/-- A step leaves all hashes current if it edits no text under a hash that is kept. -/
theorem Current.step_iff (current : Current hash heap) (operation : Operation)
    (step : Step hash heap operation after) :
    Current hash after ↔ operation.KeepsHash hash heap := by
  cases operation with
  | mutate string mutation =>
    obtain ⟨⟨returned, _⟩, ran, rfl⟩ := Option.map_eq_some_iff.mp step
    exact current.mutate_iff mutation ran
  | ctor text =>
    cases step
    exact iff_of_true (current.alloc (.inl rfl)) trivial
  | copyCtor string =>
    obtain ⟨object, present, rfl⟩ := Option.map_eq_some_iff.mp step
    have copy : object.copyCtor.HashCurrent hash :=
      (current _ _ present).kept rfl object.text_copyCtor
    exact iff_of_true (current.alloc copy) trivial
  | addref string =>
    obtain ⟨object, present, rfl⟩ := Option.map_eq_some_iff.mp step
    have kept := (current _ _ present).kept object.hash_addref object.text_addref
    exact iff_of_true (current.put (by rintro _ ⟨⟩; exact kept) _) trivial
  | delref string => exact iff_of_true (current.delref step) trivial
  | strReplace string search replacement => exact iff_of_true (current.strReplace step) trivial
  | addcslashes string what =>
    obtain ⟨object, -, step⟩ := Option.bind_eq_some_iff.mp step
    obtain ⟨built, ran, rfl⟩ := Option.map_eq_some_iff.mp step
    obtain ⟨_, expected, -, reset⟩ := object.addcslashes_spec what
    cases ran.symm.trans expected
    exact iff_of_true (current.alloc (.inl reset)) trivial
  | implode sep parts =>
    obtain ⟨objects, -, step⟩ := Option.bind_eq_some_iff.mp step
    obtain ⟨built, ran, rfl⟩ := Option.map_eq_some_iff.mp step
    exact iff_of_true (current.alloc (.inl (implode_hash ran))) trivial
  | indent string indentStr =>
    obtain ⟨⟨returned, _⟩, ran, rfl⟩ := Option.map_eq_some_iff.mp step
    exact iff_of_true (current.indent ran) trivial
  | strHash string =>
    obtain ⟨⟨value, _⟩, ran, rfl⟩ := Option.map_eq_some_iff.mp step
    exact iff_of_true (current.strHash ran) trivial
  | eq string1 string2 =>
    obtain ⟨⟨value, _⟩, ran, rfl⟩ := Option.map_eq_some_iff.mp step
    exact iff_of_true (current.eq ran) trivial

theorem hashesCurrent_iff : HashesCurrent hash heap ↔ Current hash heap :=
  ⟨HashesCurrent.hashes, Current.hashesCurrent⟩

/-- Through a run of operations on strings, from none, the promise holds of every state if each
step keeps the hashes of what it edits in place, and only then. -/
theorem hashes_current_iff (hash : StringHash) (operations : List Operation) (last : Heap) :
    (∀ before after middle, operations = before ++ after →
        Run (Step hash) [] before middle → Run (Step hash) middle after last →
          HashesCurrent hash middle) ↔
      ∀ before operation after middle, operations = before ++ operation :: after →
        Run (Step hash) [] before middle → Run (Step hash) middle (operation :: after) last →
          operation.KeepsHash hash middle := by
  simp only [hashesCurrent_iff]
  apply Run.invariant_iff
  · intro heap operation next current step
    exact current.step_iff operation step
  · intro string object present
    rw [load_nil] at present
    cases present

/-- A name behind which blanks were trimmed keeps the hash it had with the blanks. -/
theorem not_hashes_current : ¬∀ operations last, Run (Step shortEnv.hash) [] operations last →
    HashesCurrent shortEnv.hash last := by
  intro promise
  have made : Step shortEnv.hash [] (.ctor (bytes "name  ")) [some (.ctor (bytes "name  "))] := rfl
  have hashed : Step shortEnv.hash [some (.ctor (bytes "name  "))] (.strHash 0)
      [some ((Object.ctor (bytes "name  ")).strHash shortEnv.hash)] := rfl
  have before := promise _ _ (.cons made (.cons hashed (.nil _)))
  obtain ⟨last, trimmed⟩ : ∃ last, Step shortEnv.hash
      [some ((Object.ctor (bytes "name  ")).strHash shortEnv.hash)] (.mutate 0 (.rtrim (bytes " ")))
      last := ⟨_, rfl⟩
  have after := promise _ _ (.cons made (.cons hashed (.cons trimmed (.nil _))))
  have kept := (Current.step_iff before.hashes _ trimmed).mp after.hashes _ rfl
  have some : ((Object.ctor (bytes "name  ")).strHash shortEnv.hash).hash ≠ 0 := by decide
  have different : shortEnv.hash (bytes "name") ≠ shortEnv.hash (bytes "name  ") := by
    decide
  have short : ((Object.ctor (bytes "name  ")).strHash shortEnv.hash).text.rdropWhile
      (bytes " ").contains = bytes "name" := by decide
  have same := kept some
  rw [short, Object.text_strHash, Object.text_ctor] at same
  exact different same

end HandlebarsC.Strings
