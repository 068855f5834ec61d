import HandlebarsC.Cache.Lmdb

/-!
`cache_gc` and `cache_reset` of `handlebars_cache_lmdb.c`. A transaction works on a view of
its own, which replaces the database when the transaction is committed. Neither of the two
commits.
-/

namespace HandlebarsC.Lmdb

/-- What a call into LMDB returns. An error comes with its `mdb_strerror`. -/
inductive Code where
  | success
  | notFound
  | failed (text : Str)
  deriving DecidableEq

/-- `HANDLE_RC` -/
def handleRc : Code → Except Error Unit
  | .failed text => .error ⟨.error, text, LocInfo.zero⟩
  | _ => .ok ()

structure Txn where
  db : List (Str × Module)
  view : List (Str × Module)

def mdbTxnBegin (db : List (Str × Module)) : Txn :=
  ⟨db, db⟩

def mdbTxnAbort (txn : Txn) : List (Str × Module) :=
  txn.db

def mdbDel (txn : Txn) (key : Str) : Txn :=
  { txn with view := txn.view.filter fun entry => entry.1 != key }

def mdbDrop (txn : Txn) : Txn :=
  { txn with view := [] }

/-- What the calls of one operation return. -/
structure Codes where
  txnBegin : Code
  dbiOpen : Code
  stat : Code
  cursorOpen : Code
  /-- `mdb_cursor_get` where the entry of a key is next -/
  cursorGet : Str → Code
  drop : Code

/-- `cache->max_age >= 0 && difftime(now, module->ts) > cache->max_age` -/
def outlived (maxAge : ℚ) (now ts : Int) : Bool :=
  0 ≤ maxAge && maxAge < ((now - ts : Int) : ℚ)

/-- The loop of `cache_gc` over the entries the cursor meets, and the code that ends it. -/
def walk (codes : Codes) (maxAge : ℚ) (now : Int) : List (Str × Module) → Txn → Code × Txn
  | [], txn => (.notFound, txn)
  | (key, module) :: rest, txn =>
    match codes.cursorGet key with
    | .success =>
      walk codes maxAge now rest (if outlived maxAge now module.ts then mdbDel txn key else txn)
    | code => (code, txn)

/-- `cache_gc` from the begin of its transaction to the label `error`. -/
def collect (codes : Codes) (now : Int) (cache : Cache) : Code × Txn :=
  let txn := mdbTxnBegin cache.db
  if codes.dbiOpen ≠ .success then (codes.dbiOpen, txn)
  else if codes.stat ≠ .success then (codes.stat, txn)
  else if codes.cursorOpen ≠ .success then (codes.cursorOpen, txn)
  else walk codes cache.maxAge now cache.db txn

def cacheGc (codes : Codes) (now : Int) (cache : Cache) : Except Error Nat × Cache :=
  match handleRc codes.txnBegin with
  | .error error => (.error error, cache)
  | .ok () =>
    let (code, txn) := collect codes now cache
    match handleRc code with
    -- The transaction is left open.
    | .error error => (.error error, cache)
    | .ok () => (.ok 0, { cache with db := mdbTxnAbort txn })

def cacheReset (codes : Codes) (cache : Cache) : Except Error Unit × Cache :=
  match handleRc codes.txnBegin with
  | .error error => (.error error, cache)
  | .ok () =>
    let txn := mdbTxnBegin cache.db
    let (code, txn) :=
      if codes.dbiOpen ≠ .success then (codes.dbiOpen, txn)
      else if codes.drop ≠ .success then (codes.drop, txn)
      else (.success, mdbDrop txn)
    (handleRc code, { cache with db := mdbTxnAbort txn })

/-- One operation on a cache that is also collected and reset. -/
inductive Upkeep where
  | use (operation : Operation)
  | gc (now : Int) (codes : Codes)
  | reset (codes : Codes)

def maintain (env : Env) (cache : Cache) : Upkeep → Cache
  | .use operation => perform env cache operation
  | .gc now codes => (cacheGc codes now cache).2
  | .reset codes => (cacheReset codes cache).2

def maintainAll (env : Env) (cache : Cache) (history : List Upkeep) : Cache :=
  history.foldl (maintain env) cache

/-- Every call succeeds, up to the end of the cursor. -/
structure Walked (codes : Codes) (cache : Cache) : Prop where
  txnBegin : codes.txnBegin = .success
  dbiOpen : codes.dbiOpen = .success
  stat : codes.stat = .success
  cursorOpen : codes.cursorOpen = .success
  cursorGet : ∀ entry ∈ cache.db, codes.cursorGet entry.1 = .success

/-- What a find at that time returns, it returns from the other database too. -/
def Spares (env : Env) (cache : Cache) (now : Int) (db : List (Str × Module)) : Prop :=
  ∀ tmpl addr module, (cacheFind env now addr cache tmpl).1 = .ok (some module) →
    (cacheFind env now addr { cache with db := db } tmpl).1 = .ok (some module)

/-- What a collection promises: no entry goes that would be found, from the view of its
transaction or from the database, and the end of the cursor is no error. -/
structure GcSound (env : Env) (cache : Cache) (now : Int) (codes : Codes) : Prop where
  view : Spares env cache now (collect codes now cache).2.view
  db : Spares env cache now (cacheGc codes now cache).2.db
  returns : Walked codes cache → (cacheGc codes now cache).1 = .ok 0

/-! ### The invariant -/

/-- Each key has one entry. -/
def KeysUnique (cache : Cache) : Prop :=
  (cache.db.map Prod.fst).Nodup

theorem KeysUnique.put {db : List (Str × Module)} (unique : (db.map Prod.fst).Nodup) (key : Str)
    (data : Module) : ((mdbPut db key data).map Prod.fst).Nodup := by
  unfold mdbPut
  rw [List.map_cons]
  apply List.nodup_cons.mpr
  constructor
  · intro inside
    obtain ⟨entry, member, same⟩ := List.mem_map.mp inside
    have other := (List.mem_filter.mp member).2
    simp [same] at other
  · exact unique.sublist (List.filter_sublist.map Prod.fst)

/-- Nothing that is done to the view of a transaction touches the database. -/
theorem walk_db (codes : Codes) (maxAge : ℚ) (now : Int) (entries : List (Str × Module)) (txn : Txn) :
    (walk codes maxAge now entries txn).2.db = txn.db := by
  induction entries generalizing txn with
  | nil => rfl
  | cons entry rest ih =>
    unfold walk
    split
    · rw [ih]
      split <;> rfl
    · rfl

theorem collect_db (codes : Codes) (now : Int) (cache : Cache) :
    (collect codes now cache).2.db = cache.db := by
  unfold collect
  dsimp only
  split
  · rfl
  · split
    · rfl
    · split
      · rfl
      · exact walk_db codes cache.maxAge now cache.db _

theorem cacheGc_keeps (codes : Codes) (now : Int) (cache : Cache) :
    (cacheGc codes now cache).2.db = cache.db := by
  unfold cacheGc
  split
  · rfl
  · dsimp only
    split
    · rfl
    · exact collect_db codes now cache

theorem cacheReset_keeps (codes : Codes) (cache : Cache) :
    (cacheReset codes cache).2.db = cache.db := by
  unfold cacheReset
  split
  · rfl
  · dsimp only
    split
    · rfl
    · split <;> rfl

theorem KeysUnique.maintain {cache : Cache} (unique : KeysUnique cache) (env : Env)
    (upkeep : Upkeep) : KeysUnique (maintain env cache upkeep) := by
  unfold KeysUnique
  cases upkeep with
  | use operation =>
    cases operation with
    | add tmpl module copy =>
      simp only [Lmdb.maintain, perform, cacheAdd]
      split
      · exact KeysUnique.put unique _ _
      · exact unique
    | find tmpl now addr =>
      rw [Lmdb.maintain, perform, (cacheFind_db env now addr cache tmpl).1]
      exact unique
  | gc now codes =>
    rw [Lmdb.maintain, cacheGc_keeps]
    exact unique
  | reset codes =>
    rw [Lmdb.maintain, cacheReset_keeps]
    exact unique

theorem keysUnique_maintainAll (env : Env) (maxAge : ℚ) (history : List Upkeep) :
    KeysUnique (maintainAll env (openCache maxAge) history) := by
  induction history using List.reverseRecOn with
  | nil => exact List.nodup_nil
  | append_singleton history upkeep ih =>
    rw [maintainAll, List.foldl_append]
    exact KeysUnique.maintain ih env upkeep

/-! ### Collections -/

/-- An entry that is not too old for a find has not outlived its age for a collection. -/
theorem outlived_of_young (young : tooOld maxAge now ts = false) : outlived maxAge now ts = false := by
  simp only [tooOld, Bool.and_eq_false_iff, decide_eq_false_iff_not, not_le] at young
  simp only [outlived, Bool.and_eq_false_iff, decide_eq_false_iff_not, not_le, not_lt]
  exact young.imp_right le_of_lt

/-- The walk leaves a key of which it meets only entries that are young. -/
theorem walk_get (codes : Codes) (entries : List (Str × Module)) (txn : Txn)
    (young : ∀ entry ∈ entries, entry.1 = key → outlived maxAge now entry.2.ts = false) :
    mdbGet (walk codes maxAge now entries txn).2.view key = mdbGet txn.view key := by
  induction entries generalizing txn with
  | nil => rfl
  | cons entry rest ih =>
    have later : ∀ entry ∈ rest, entry.1 = key → outlived maxAge now entry.2.ts = false :=
      fun entry member => young entry (List.mem_cons_of_mem _ member)
    unfold walk
    split
    · rw [ih _ later]
      split
      · rename_i old
        have other : entry.1 ≠ key := by
          intro same
          rw [young entry List.mem_cons_self same] at old
          cases old
        exact mdbGet_filter txn.view other
      · rfl
    · rfl

/-- A key with one entry is found with it. -/
theorem mdbGet_unique {db : List (Str × Module)} (unique : (db.map Prod.fst).Nodup)
    (found : mdbGet db key = some module) (member : entry ∈ db) (same : entry.1 = key) :
    entry.2 = module := by
  induction db with
  | nil => cases member
  | cons first rest ih =>
    rw [List.map_cons] at unique
    obtain ⟨apart, uniqueRest⟩ := List.nodup_cons.mp unique
    by_cases here : first.1 = key
    · simp only [mdbGet, List.find?_cons, here, beq_self_eq_true, Option.map_some,
        Option.some.injEq] at found
      rcases List.mem_cons.mp member with rfl | later
      · exact found
      · rw [here, ← same] at apart
        exact absurd (List.mem_map_of_mem later) apart
    · have found : mdbGet rest key = some module := by
        simpa [mdbGet, List.find?_cons, here] using found
      rcases List.mem_cons.mp member with rfl | later
      · exact absurd same here
      · exact ih uniqueRest found later

/-- What a find returns is what LMDB holds under its key, and not too old. -/
theorem found_young (found : (cacheFind env now addr cache tmpl).1 = .ok (some result)) :
    ∃ module, mdbGet cache.db (makeKey env tmpl) = some module ∧
      tooOld cache.maxAge now module.ts = false := by
  unfold cacheFind at found
  dsimp only at found
  split at found
  · split at found
    · cases found
    · rename_i module present
      split at found
      · cases found
      · split at found
        · cases found
        · rename_i young
          exact ⟨module, present, by simpa using young⟩
  · cases found

/-- A find reads the database under its own key only. -/
theorem cacheFind_congr (env : Env) (now : Int) (addr : Nat) (cache : Cache) (tmpl : Str)
    (same : mdbGet db (makeKey env tmpl) = mdbGet cache.db (makeKey env tmpl)) :
    (cacheFind env now addr { cache with db := db } tmpl).1 =
      (cacheFind env now addr cache tmpl).1 := by
  unfold cacheFind
  dsimp only
  rw [same]
  split
  · split
    · rfl
    · split
      · rfl
      · split <;> rfl
  · rfl

/-- The view of a collection at its end holds all that a find would return. -/
theorem collect_spares (env : Env) (unique : KeysUnique cache) (codes : Codes) (now : Int) :
    Spares env cache now (collect codes now cache).2.view := by
  intro tmpl addr result found
  rw [cacheFind_congr]
  · exact found
  · obtain ⟨module, present, young⟩ := found_young found
    unfold collect
    dsimp only
    split
    · rfl
    · split
      · rfl
      · split
        · rfl
        · refine walk_get codes cache.db (mdbTxnBegin cache.db) ?_
          intro entry member same
          rw [mdbGet_unique unique present member same]
          exact outlived_of_young young

/-- Past its last entry the cursor answers `MDB_NOTFOUND`. -/
theorem walk_end (codes : Codes) (maxAge : ℚ) (now : Int) (entries : List (Str × Module)) (txn : Txn)
    (walked : ∀ entry ∈ entries, codes.cursorGet entry.1 = .success) :
    (walk codes maxAge now entries txn).1 = .notFound := by
  induction entries generalizing txn with
  | nil => rfl
  | cons entry rest ih =>
    unfold walk
    rw [walked entry List.mem_cons_self]
    exact ih _ fun later member => walked later (List.mem_cons_of_mem _ member)

theorem cacheGc_returns {cache : Cache} (walked : Walked codes cache) (now : Int) :
    (cacheGc codes now cache).1 = .ok 0 := by
  have ended : (collect codes now cache).1 = .notFound := by
    simp only [collect, walked.dbiOpen, walked.stat, walked.cursorOpen, ne_eq, not_true_eq_false,
      if_false]
    exact walk_end codes cache.maxAge now cache.db _ walked.cursorGet
  simp only [cacheGc, walked.txnBegin, ended, handleRc]

theorem gcSound (env : Env) (unique : KeysUnique cache) (codes : Codes) (now : Int) :
    GcSound env cache now codes := by
  constructor
  · exact collect_spares env unique codes now
  · intro tmpl addr result found
    rw [cacheGc_keeps]
    exact found
  · exact fun walked => cacheGc_returns walked now

end HandlebarsC.Lmdb
