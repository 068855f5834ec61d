import Mathlib.Algebra.Order.Ring.Rat
import Mathlib.Data.List.Induction
import HandlebarsC.Core.Map
import HandlebarsC.Serializer.Relocate

/-!
`handlebars_cache_lmdb.c`. LMDB itself is a finite map from byte keys to values
that refuses keys that are empty or longer than `mdb_env_get_maxkeysize`.
-/

namespace HandlebarsC.Lmdb

open Serializer

structure Env where
  hash : StringHash
  maxKeySize : Nat
  /-- `handlebars_hash_xxh3` over the bytes of a module -/
  moduleHash : Module → UInt64
  /-- `mdb_strerror(MDB_BAD_VALSIZE)` -/
  badValsize : Str

structure Cache where
  db : List (Str × Module)
  hits : Nat
  misses : Nat
  maxAge : ℚ

/-- The key `cache_find` and `cache_add` build, each in its own copy of these lines. -/
def makeKey (env : Env) (tmpl : Str) : Str :=
  if tmpl.length > env.maxKeySize then bytes "hash:" ++ decimal (env.hash tmpl).toNat
  else tmpl ++ [0]

/-- What LMDB demands of a key. -/
def Admissible (env : Env) (key : Str) : Prop :=
  key ≠ [] ∧ key.length ≤ env.maxKeySize

instance (env : Env) (key : Str) : Decidable (Admissible env key) :=
  inferInstanceAs (Decidable (_ ∧ _))

/-- `HANDLE_RC` on `MDB_BAD_VALSIZE` -/
def badKey (env : Env) : Error :=
  ⟨.error, env.badValsize, LocInfo.zero⟩

def mdbGet (db : List (Str × Module)) (key : Str) : Option Module :=
  (db.find? fun entry => entry.1 == key).map (·.2)

def mdbPut (db : List (Str × Module)) (key : Str) (data : Module) : List (Str × Module) :=
  (key, data) :: db.filter fun entry => entry.1 != key

/-- `cache->max_age >= 0 && difftime(now, module->ts) >= cache->max_age` -/
def tooOld (maxAge : ℚ) (now ts : Int) : Bool :=
  0 ≤ maxAge && maxAge ≤ ((now - ts : Int) : ℚ)

/-- `cache_find` at time `now`, whose duplicate of the data is allocated at `addr`. -/
def cacheFind (env : Env) (now : Int) (addr : Nat) (cache : Cache) (tmpl : Str) :
    Except Error (Option Module) × Cache :=
  let key := makeKey env tmpl
  if Admissible env key then
    match mdbGet cache.db key with
    | none => (.ok none, { cache with misses := cache.misses + 1 })
    | some module =>
      if !moduleVerify env.moduleHash module then
        (.ok none, { cache with misses := cache.misses + 1 })
      else if tooOld cache.maxAge now module.ts then
        (.ok none, { cache with misses := cache.misses + 1 })
      else
        (.ok (some (patchPointers module addr)), { cache with hits := cache.hits + 1 })
  else (.error (badKey env), cache)

/-- The copy of a module that goes into the database, made at `copy`. -/
def storedForm (env : Env) (copy : Nat) (module : Module) : Module :=
  generateHash env.moduleHash (normalizePointers (patchPointers module copy) 0)

def cacheAdd (env : Env) (copy : Nat) (cache : Cache) (tmpl : Str) (module : Module) :
    Except Error Unit × Cache :=
  let key := makeKey env tmpl
  if Admissible env key then
    (.ok (), { cache with db := mdbPut cache.db key (storedForm env copy module) })
  else (.error (badKey env), cache)

inductive Operation where
  | add (tmpl : Str) (module : Module) (copy : Nat)
  | find (tmpl : Str) (now : Int) (addr : Nat)

def Operation.tmpl : Operation → Str
  | add tmpl .. => tmpl
  | find tmpl .. => tmpl

def perform (env : Env) (cache : Cache) : Operation → Cache
  | .add tmpl module copy => (cacheAdd env copy cache tmpl module).2
  | .find tmpl now addr => (cacheFind env now addr cache tmpl).2

def performAll (env : Env) (cache : Cache) (operations : List Operation) : Cache :=
  operations.foldl (perform env) cache

/-- An empty database. -/
def openCache (maxAge : ℚ) : Cache :=
  { db := [], hits := 0, misses := 0, maxAge := maxAge }

/-! ### The abstract cache: the module last added for each template -/

def addedFor (tmpl : Str) : Operation → Option (Module × Nat)
  | .add added module copy => if added = tmpl then some (module, copy) else none
  | .find .. => none

/-- The module last added for a template, and where its copy was made. -/
def lastAdded (tmpl : Str) (history : List Operation) : Option (Module × Nat) :=
  history.reverse.findSome? (addedFor tmpl)

/-- What a find has to return: the module last added, when it is of this version
and not too old. -/
def expected (env : Env) (maxAge : ℚ) (history : List Operation) (tmpl : Str) (now : Int)
    (addr : Nat) : Option Module :=
  match lastAdded tmpl history with
  | none => none
  | some (module, copy) =>
    if module.version = handlebarsVersion ∧ tooOld maxAge now module.ts = false then
      some (patchPointers (storedForm env copy module) addr)
    else none

theorem lastAdded_append (tmpl : Str) (history : List Operation) (operation : Operation) :
    lastAdded tmpl (history ++ [operation]) = (addedFor tmpl operation).or (lastAdded tmpl history) := by
  simp only [lastAdded, List.reverse_append, List.reverse_singleton, List.singleton_append,
    List.findSome?_cons]
  cases addedFor tmpl operation <;> rfl

/-- The module returned says exactly what the module added said. -/
theorem returned_contents (env : Env) (copy addr : Nat) (module : Module) :
    SameContents (patchPointers (storedForm env copy module) addr) module := by
  apply (normalizePointers_contents _ addr).trans
  apply (generateHash_contents _ _).trans
  apply (normalizePointers_contents _ 0).trans
  exact normalizePointers_contents module copy

/-! ### Keys -/

theorem makeKey_short (env : Env) (short : tmpl.length ≤ env.maxKeySize) :
    makeKey env tmpl = tmpl ++ [0] := by
  unfold makeKey
  rw [if_neg (by omega)]

theorem makeKey_long (env : Env) (long : env.maxKeySize < tmpl.length) :
    makeKey env tmpl = bytes "hash:" ++ decimal (env.hash tmpl).toNat := by
  unfold makeKey
  rw [if_pos long]

theorem makeKey_admissible_iff (env : Env) (tmpl : Str) :
    Admissible env (makeKey env tmpl) ↔
      tmpl.length ≠ env.maxKeySize ∧
        (env.maxKeySize < tmpl.length →
          (bytes "hash:" ++ decimal (env.hash tmpl).toNat).length ≤ env.maxKeySize) := by
  by_cases long : env.maxKeySize < tmpl.length
  · rw [makeKey_long env long, Admissible]
    constructor
    · rintro ⟨-, fits⟩
      exact ⟨by omega, fun _ => fits⟩
    · rintro ⟨-, fits⟩
      exact ⟨List.append_ne_nil_of_left_ne_nil (by decide) _, fits long⟩
  · rw [makeKey_short env (Nat.le_of_not_lt long), Admissible]
    simp only [List.length_append, List.length_singleton]
    constructor
    · rintro ⟨-, fits⟩
      exact ⟨by omega, fun absurdly => absurd absurdly long⟩
    · rintro ⟨different, -⟩
      exact ⟨List.append_ne_nil_of_right_ne_nil _ (by decide), by omega⟩

theorem zero_not_mem_hashKey (number : Nat) : (0 : UInt8) ∉ bytes "hash:" ++ decimal number := by
  intro member
  rcases List.mem_append.mp member with word | digits
  · revert word
    decide
  · exact zero_not_mem_decimal number digits

/-- Two templates share a key only when both are hashed to the same number. -/
theorem makeKey_eq_iff (env : Env) (left right : Str) :
    makeKey env left = makeKey env right ↔
      left = right ∨ (env.maxKeySize < left.length ∧ env.maxKeySize < right.length ∧
        env.hash left = env.hash right) := by
  constructor
  · intro same
    by_cases longLeft : env.maxKeySize < left.length
    · by_cases longRight : env.maxKeySize < right.length
      · rw [makeKey_long env longLeft, makeKey_long env longRight] at same
        have numbers := decimal_injective (List.append_cancel_left same)
        exact .inr ⟨longLeft, longRight, UInt32.toNat_inj.mp numbers⟩
      · rw [makeKey_long env longLeft, makeKey_short env (Nat.le_of_not_lt longRight)] at same
        exact absurd (same ▸ by simp) (zero_not_mem_hashKey (env.hash left).toNat)
    · by_cases longRight : env.maxKeySize < right.length
      · rw [makeKey_short env (Nat.le_of_not_lt longLeft), makeKey_long env longRight] at same
        exact absurd (same ▸ by simp) (zero_not_mem_hashKey (env.hash right).toNat)
      · rw [makeKey_short env (Nat.le_of_not_lt longLeft),
          makeKey_short env (Nat.le_of_not_lt longRight)] at same
        exact .inl (List.append_cancel_right same)
  · rintro (rfl | ⟨longLeft, longRight, same⟩)
    · rfl
    · rw [makeKey_long env longLeft, makeKey_long env longRight, same]

/-- Taking out one key leaves the others. -/
theorem mdbGet_filter (db : List (Str × Module)) (other : taken ≠ key) :
    mdbGet (db.filter fun entry => entry.1 != taken) key = mdbGet db key := by
  unfold mdbGet
  rw [List.find?_filter]
  congr 2
  funext entry
  by_cases here : entry.1 = key
  · simp [here, Ne.symm other]
  · simp [here]

theorem mdbGet_mdbPut (db : List (Str × Module)) (key other : Str) (data : Module) :
    mdbGet (mdbPut db key data) other = if key = other then some data else mdbGet db other := by
  by_cases same : key = other
  · simp [mdbGet, mdbPut, same]
  · rw [if_neg same, ← mdbGet_filter db same]
    simp [mdbGet, mdbPut, same]

/-! ### Runs -/

/-- No template is exactly as long as the longest key, and the keys of longer ones fit. -/
def KeysFit (env : Env) (operations : List Operation) : Prop :=
  ∀ operation ∈ operations, operation.tmpl.length ≠ env.maxKeySize ∧
    (env.maxKeySize < operation.tmpl.length →
      (bytes "hash:" ++ decimal (env.hash operation.tmpl).toNat).length ≤ env.maxKeySize)

/-- Templates longer than the longest key have different hashes. -/
def HashesApart (env : Env) (operations : List Operation) : Prop :=
  ∀ left ∈ operations, ∀ right ∈ operations, env.maxKeySize < left.tmpl.length →
    env.maxKeySize < right.tmpl.length → env.hash left.tmpl = env.hash right.tmpl →
      left.tmpl = right.tmpl

/-- What the cache promises about a sequence of operations on an empty database. -/
structure Sound (env : Env) (maxAge : ℚ) (operations : List Operation) : Prop where
  admissible : ∀ operation ∈ operations, Admissible env (makeKey env operation.tmpl)
  distinct : ∀ left ∈ operations, ∀ right ∈ operations,
    makeKey env left.tmpl = makeKey env right.tmpl → left.tmpl = right.tmpl
  finds : ∀ history tmpl now addr rest, operations = history ++ .find tmpl now addr :: rest →
    (cacheFind env now addr (performAll env (openCache maxAge) history) tmpl).1 =
      .ok (expected env maxAge history tmpl now addr)

/-- The database holds, under the key of each template in use, the module last added for it. -/
def Matches (env : Env) (maxAge : ℚ) (operations history : List Operation) (cache : Cache) : Prop :=
  cache.maxAge = maxAge ∧ ∀ operation ∈ operations,
    mdbGet cache.db (makeKey env operation.tmpl) =
      (lastAdded operation.tmpl history).map fun added => storedForm env added.2 added.1

theorem cacheFind_db (env : Env) (now : Int) (addr : Nat) (cache : Cache) (tmpl : Str) :
    (cacheFind env now addr cache tmpl).2.db = cache.db ∧
      (cacheFind env now addr cache tmpl).2.maxAge = cache.maxAge := by
  unfold cacheFind
  dsimp only
  repeat' split
  all_goals exact ⟨rfl, rfl⟩

theorem Matches.perform (matched : Matches env maxAge operations history cache)
    (fits : ∀ operation ∈ operations, Admissible env (makeKey env operation.tmpl))
    (distinct : ∀ left ∈ operations, ∀ right ∈ operations,
      makeKey env left.tmpl = makeKey env right.tmpl → left.tmpl = right.tmpl)
    (member : operation ∈ operations) :
    Matches env maxAge operations (history ++ [operation]) (perform env cache operation) := by
  obtain ⟨age, entries⟩ := matched
  cases operation with
  | find tmpl now addr =>
    obtain ⟨db, sameAge⟩ := cacheFind_db env now addr cache tmpl
    refine ⟨sameAge.trans age, ?_⟩
    intro other otherMember
    rw [Lmdb.perform, db, lastAdded_append, addedFor, Option.none_or]
    exact entries other otherMember
  | add tmpl module copy =>
    have admissible : Admissible env (makeKey env tmpl) := fits _ member
    rw [Lmdb.perform, cacheAdd, if_pos admissible]
    refine ⟨age, ?_⟩
    intro other otherMember
    rw [mdbGet_mdbPut, lastAdded_append, addedFor]
    by_cases same : tmpl = other.tmpl
    · simp [same]
    · have apart : makeKey env tmpl ≠ makeKey env other.tmpl :=
        fun sameKey => same (distinct _ member other otherMember sameKey)
      simp only [apart, same, if_false, Option.none_or]
      exact entries other otherMember

theorem matches_performAll (fits : ∀ operation ∈ operations, Admissible env (makeKey env operation.tmpl))
    (distinct : ∀ left ∈ operations, ∀ right ∈ operations,
      makeKey env left.tmpl = makeKey env right.tmpl → left.tmpl = right.tmpl)
    (history : List Operation) (inside : ∀ operation ∈ history, operation ∈ operations) :
    Matches env maxAge operations history (performAll env (openCache maxAge) history) := by
  induction history using List.reverseRecOn with
  | nil => exact ⟨rfl, fun _ _ => rfl⟩
  | append_singleton history operation ih =>
    rw [performAll, List.foldl_append]
    apply Matches.perform (ih fun earlier member => inside earlier (by simp [member])) fits distinct
    exact inside operation (by simp)

/-- A find on a database that matches the history returns what it has to. -/
theorem cacheFind_expected (matched : Matches env maxAge operations history cache)
    (member : Operation.find tmpl now addr ∈ operations)
    (fits : Admissible env (makeKey env tmpl)) :
    (cacheFind env now addr cache tmpl).1 = .ok (expected env maxAge history tmpl now addr) := by
  have entry := matched.2 _ member
  rw [Operation.tmpl] at entry
  unfold cacheFind expected
  simp only [if_pos fits, entry, matched.1]
  cases lastAdded tmpl history with
  | none => rfl
  | some added =>
    obtain ⟨module, copy⟩ := added
    have contents := ((normalizePointers_contents _ 0).trans (normalizePointers_contents module copy))
    have verified : moduleVerify env.moduleHash (storedForm env copy module) =
        (handlebarsVersion == module.version) := by
      rw [storedForm, moduleVerify_generateHash]
      exact congrArg (handlebarsVersion == ·) contents.version
    have stamp : (storedForm env copy module).ts = module.ts := contents.ts
    simp only [Option.map_some, verified, stamp]
    by_cases version : module.version = handlebarsVersion
    · by_cases old : tooOld maxAge now module.ts
      · simp [version, old]
      · simp [version, old]
    · have other : (handlebarsVersion == module.version) = false := by
        simpa using Ne.symm version
      simp [version, other]

/-- Keys are admissible and distinct, and every find returns exactly the module last
added for its template, if and only if no template used is exactly as long as the
longest key and no two longer ones share a hash. -/
theorem sound_iff (env : Env) (maxAge : ℚ) (operations : List Operation) :
    Sound env maxAge operations ↔ KeysFit env operations ∧ HashesApart env operations := by
  constructor
  · intro sound
    constructor
    · intro operation member
      exact (makeKey_admissible_iff env _).mp (sound.admissible operation member)
    · intro left leftMember right rightMember longLeft longRight same
      apply sound.distinct left leftMember right rightMember
      exact (makeKey_eq_iff env _ _).mpr (.inr ⟨longLeft, longRight, same⟩)
  · rintro ⟨fit, apart⟩
    have admissible : ∀ operation ∈ operations, Admissible env (makeKey env operation.tmpl) :=
      fun operation member => (makeKey_admissible_iff env _).mpr (fit operation member)
    have distinct : ∀ left ∈ operations, ∀ right ∈ operations,
        makeKey env left.tmpl = makeKey env right.tmpl → left.tmpl = right.tmpl := by
      intro left leftMember right rightMember same
      rcases (makeKey_eq_iff env _ _).mp same with equal | ⟨longLeft, longRight, hashes⟩
      · exact equal
      · exact apart left leftMember right rightMember longLeft longRight hashes
    refine ⟨admissible, distinct, ?_⟩
    rintro history tmpl now addr rest rfl
    apply cacheFind_expected
    · exact matches_performAll admissible distinct history fun earlier member => by simp [member]
    · simp
    · exact admissible (.find tmpl now addr) (by simp)

/-- LMDB's default key size, and any hash: a template of 511 bytes has no admissible key. -/
theorem not_always_sound :
    ¬ ∀ (env : Env) (maxAge : ℚ) (operations : List Operation), Sound env maxAge operations := by
  intro always
  have sound := always ⟨fun _ => 0, 511, fun _ => 0, []⟩ (-1)
    [.find (List.replicate 511 97) 0 0]
  have fits := (makeKey_admissible_iff _ _).mp (sound.admissible _ (List.mem_singleton.mpr rfl))
  exact fits.1 List.length_replicate

end HandlebarsC.Lmdb
