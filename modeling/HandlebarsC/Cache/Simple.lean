import Mathlib.Algebra.Order.Ring.Rat
import Mathlib.Data.List.Sort
import HandlebarsC.Core.Map
import HandlebarsC.Serializer.Model

/-!
`handlebars_cache_simple.c`. Modules live in a heap; the cache's map holds pointers
to them.
-/

namespace HandlebarsC.Simple

/-- `handlebars_map_sort` leaves its order to `qsort`, of which only this is known. -/
structure Env where
  hash : StringHash
  qsort : (Str × Nat → Str × Nat → Int) → List (Str × Nat) → List (Str × Nat)
  qsort_perm : ∀ compare map, (qsort compare map).Perm map

structure Cache where
  map : StrMap Nat
  /-- Allocated modules by address. -/
  heap : Nat → Option Module
  currentEntries : UInt64
  currentSize : UInt64
  hits : Nat
  misses : Nat
  maxAge : ℚ
  maxSize : UInt64
  maxEntries : UInt64

def shouldGc (cache : Cache) : Bool :=
  (cache.maxSize > 0 && cache.currentSize > cache.maxSize) ||
    (cache.maxEntries > 0 && cache.currentEntries > cache.maxEntries)

def shouldGcEntry (cache : Cache) (module : Module) (now : Int) : Bool :=
  if 0 ≤ cache.maxAge && cache.maxAge ≤ ((now - module.ts : Int) : ℚ) then true
  else shouldGc cache

/-- `cache_compare`, through the modules the two pointers lead to. -/
def compareTs (heap : Nat → Option Module) (left right : Str × Nat) : Int :=
  let delta := ((heap left.2).elim 0 (·.ts)) - ((heap right.2).elim 0 (·.ts))
  (if delta > 0 then 1 else 0) - (if delta < 0 then 1 else 0)

def alloc (cache : Cache) (ptr : Nat) (module : Module) : Cache :=
  { cache with heap := fun addr => if addr = ptr then some module else cache.heap addr }

/-- `talloc_free` -/
def free (cache : Cache) (ptr : Nat) : Cache :=
  { cache with heap := fun addr => if addr = ptr then none else cache.heap addr }

/-- The loop of `cache_gc`: entries are taken from the front while they should go.
Reading a module that was freed is undefined. -/
def evict (cache : Cache) (now : Int) : List (Str × Nat) → Option (List (Str × Nat) × Cache)
  | [] => some ([], cache)
  | (key, ptr) :: rest =>
    (cache.heap ptr).bind fun module =>
    if shouldGcEntry cache module now then
      let cache := { cache with
        currentEntries := cache.currentEntries - 1
        currentSize := cache.currentSize - UInt64.ofNat module.size }
      (evict cache now rest).map fun (removed, cache) => ((key, ptr) :: removed, cache)
    else some ([], cache)

/-- `handlebars_map_remove`, which frees the module with its last pointer. -/
def removeKey (env : Env) (cache : Cache) (key : Str) : Cache :=
  match StrMap.find env.hash cache.map key with
  | some ptr => { free cache ptr with map := StrMap.remove env.hash cache.map key }
  | none => cache

def sortMap (env : Env) (cache : Cache) : Cache :=
  { cache with map := env.qsort (compareTs cache.heap) cache.map }

def cacheGc (env : Env) (now : Int) (cache : Cache) : Option Cache :=
  let cache := sortMap env cache
  (evict cache now cache.map).map fun (removed, cache) =>
    removed.foldl (fun cache entry => removeKey env cache entry.1) cache

/-- `cache_find`, which stamps the module it returns. -/
def cacheFind (env : Env) (now : Int) (cache : Cache) (tmpl : Str) : Option (Option Nat × Cache) :=
  match StrMap.find env.hash cache.map tmpl with
  | some ptr =>
    (cache.heap ptr).map fun module =>
      (some ptr, { alloc cache ptr { module with ts := now } with hits := cache.hits + 1 })
  | none => some (none, { cache with misses := cache.misses + 1 })

/-- What `cache_add` begins with. -/
def collect (env : Env) (now : Int) (cache : Cache) : Option Cache :=
  if shouldGc cache then cacheGc env now cache else some cache

/-- `cache_add`, on the entries and the statistics; a key that is present makes
`handlebars_map_add` throw. -/
def cacheAdd (env : Env) (now : Int) (cache : Cache) (tmpl : Str) (ptr : Nat) :
    Option (Except Error Unit × Cache) :=
  (collect env now cache).bind fun cache =>
  (cache.heap ptr).map fun module =>
  let cache := alloc cache ptr { module with ts := now }
  match StrMap.add env.hash cache.map tmpl ptr with
  | .error error => (.error error, cache)
  | .ok map =>
    (.ok (),
      { cache with
        map := map
        currentEntries := cache.currentEntries + 1
        currentSize := cache.currentSize + UInt64.ofNat module.size })

/-- `cache_reset` frees the map and forgets its modules without freeing them. -/
def cacheReset (cache : Cache) : Cache :=
  { cache with map := [], currentEntries := 0, currentSize := 0, hits := 0, misses := 0 }

def openCache (heap : Nat → Option Module) (maxAge : ℚ) (maxSize maxEntries : UInt64) : Cache :=
  { map := [], heap := heap, currentEntries := 0, currentSize := 0, hits := 0, misses := 0
    maxAge := maxAge, maxSize := maxSize, maxEntries := maxEntries }

inductive Operation where
  | find (tmpl : Str) (now : Int)
  /-- The module is allocated at `ptr` before it is added. Whether the map is due for a rehash
  when it is, its entries do not tell. -/
  | add (tmpl : Str) (module : Module) (ptr : Nat) (now : Int) (due : Bool)
  | release (ptr : Nat)
  | gc (now : Int)
  | reset

/-- The cache, and the modules its users were given and have not released yet. -/
structure World where
  cache : Cache
  held : List (Nat × Module)
  /-- `intern->map` points to a map that was freed. -/
  lost : Bool

/-- One operation on a cache that has its map. New modules lie where nothing is allocated, and
users release only what they were given. An add that throws has rehashed before, and what it
would have put in the place of the map that the rehash freed is lost. -/
def perform (env : Env) (world : World) : Operation → Option World
  | .find tmpl now =>
    (cacheFind env now world.cache tmpl).bind fun (result, cache) =>
    match result with
    | some ptr =>
      (cache.heap ptr).map fun module =>
        { world with cache := cache, held := (ptr, module) :: world.held }
    | none => some { world with cache := cache }
  | .add tmpl module ptr now due =>
    if (world.cache.heap ptr).isSome then none
    else
      (cacheAdd env now (alloc world.cache ptr module) tmpl ptr).map fun (result, cache) =>
        { world with cache := cache, lost := due && !result.isOk }
  | .release ptr =>
    if world.held.any (·.1 == ptr) then
      some { world with held := world.held.eraseP (·.1 == ptr) }
    else none
  | .gc now => (cacheGc env now world.cache).map fun cache => { world with cache := cache }
  | .reset => some { world with cache := cacheReset world.cache }

/-- `cache_release` does nothing, also not with the map. -/
def Operation.usesMap : Operation → Bool
  | .release _ => false
  | _ => true

/-- One operation; to reach for a map that was freed is undefined. -/
def step (env : Env) (world : World) (operation : Operation) : Option World :=
  if world.lost && operation.usesMap then none else perform env world operation

def inUse (world : World) (ptr : Nat) : Bool :=
  world.held.any (·.1 == ptr)

/-- The entries a collection would take from the cache. -/
def evicted (env : Env) (cache : Cache) (now : Int) : List (Str × Nat) :=
  let cache := sortMap env cache
  ((evict cache now cache.map).map (·.1)).getD []

/-- No add finds its key stored while the map is due for a rehash. -/
def Admitted (env : Env) (world : World) : Operation → Prop
  | .add tmpl module ptr now due => due = true →
      ∀ cache, collect env now (alloc world.cache ptr module) = some cache →
        StrMap.find env.hash cache.map tmpl = none
  | _ => True

/-- No collection reaches a module in use, and a module in use that is found again is
found within the same second. -/
def Untouched (env : Env) (world : World) : Operation → Prop
  | .find tmpl now => ∀ ptr module, StrMap.find env.hash world.cache.map tmpl = some ptr →
      inUse world ptr = true → world.cache.heap ptr = some module → module.ts = now
  | .gc now => ∀ entry ∈ evicted env world.cache now, inUse world entry.2 = false
  | .add _ module ptr now _ => shouldGc world.cache = true →
      ∀ entry ∈ evicted env (alloc world.cache ptr module) now, inUse world entry.2 = false
  | _ => True

def Spared (env : Env) (world : World) (operation : Operation) : Prop :=
  Untouched env world operation ∧ Admitted env world operation

/-! ### The invariant -/

/-- No two entries of the map have equal keys. -/
def KeysDistinct (hash : StringHash) (map : StrMap Nat) : Prop :=
  ∀ left ∈ map, ∀ right ∈ map, stringEq hash left.1 right.1 = true → left = right

structure Inv (env : Env) (world : World) : Prop where
  distinct : KeysDistinct env.hash world.cache.map
  kept : ∀ found ∈ world.held, world.cache.heap found.1 = some found.2

variable {env : Env} {world next : World} {cache after : Cache}

theorem KeysDistinct.subset {hash : StringHash} {map smaller : StrMap Nat}
    (distinct : KeysDistinct hash map)
    (inside : ∀ entry ∈ smaller, entry ∈ map) : KeysDistinct hash smaller :=
  fun left leftMember right rightMember =>
    distinct left (inside left leftMember) right (inside right rightMember)

theorem evict_frame (taken : evict cache now entries = some (removed, after)) :
    after.map = cache.map ∧ after.heap = cache.heap ∧ ∀ entry ∈ removed, entry ∈ entries := by
  induction entries generalizing cache removed after with
  | nil =>
    cases taken
    exact ⟨rfl, rfl, fun _ member => member⟩
  | cons entry rest ih =>
    obtain ⟨key, ptr⟩ := entry
    rw [evict] at taken
    obtain ⟨module, -, taken⟩ := Option.bind_eq_some_iff.mp taken
    split at taken
    · obtain ⟨⟨later, final⟩, success, same⟩ := Option.map_eq_some_iff.mp taken
      cases same
      obtain ⟨map, heap, inside⟩ := ih success
      refine ⟨map, heap, ?_⟩
      intro found member
      rcases List.mem_cons.mp member with rfl | below
      · exact List.mem_cons_self
      · exact List.mem_cons_of_mem _ (inside found below)
    · cases taken
      exact ⟨rfl, rfl, fun _ member => absurd member List.not_mem_nil⟩

/-- Removing entries of a map with distinct keys frees their pointers and no others. -/
theorem removeKeys_heap (removed : List (Str × Nat)) (map : StrMap Nat)
    (distinct : KeysDistinct env.hash map) (inside : ∀ entry ∈ cache.map, entry ∈ map)
    (listed : ∀ entry ∈ removed, entry ∈ map) :
    let final := removed.foldl (fun cache entry => removeKey env cache entry.1) cache
    (∀ entry ∈ final.map, entry ∈ map) ∧
      ∀ ptr, (∀ entry ∈ removed, entry.2 ≠ ptr) → final.heap ptr = cache.heap ptr := by
  induction removed generalizing cache with
  | nil => exact ⟨inside, fun _ _ => rfl⟩
  | cons entry rest ih =>
    have listedRest : ∀ later ∈ rest, later ∈ map := fun later member => listed later (by simp [member])
    rw [List.foldl_cons]
    unfold removeKey
    cases found : StrMap.find env.hash cache.map entry.1 with
    | none =>
      obtain ⟨smaller, heap⟩ := ih inside listedRest
      exact ⟨smaller, fun ptr other => heap ptr fun later member => other later (by simp [member])⟩
    | some freed =>
      obtain ⟨stored, present, same⟩ := StrMap.find_some found
      have this_entry : (stored, freed) = entry :=
        distinct _ (inside _ present) _ (listed entry (by simp)) same
      have insideAfter : ∀ kept ∈ StrMap.remove env.hash cache.map entry.1, kept ∈ map :=
        fun kept member => inside kept (List.mem_of_mem_eraseP member)
      obtain ⟨smaller, heap⟩ := @ih { free cache freed with
        map := StrMap.remove env.hash cache.map entry.1 } insideAfter listedRest
      refine ⟨smaller, ?_⟩
      intro ptr other
      have apart : ptr ≠ freed := by
        intro equal
        apply other entry (by simp)
        rw [← this_entry, equal]
      refine (heap ptr fun later member => other later (by simp [member])).trans ?_
      simp [free, apart]

theorem cacheGc_spec (distinct : KeysDistinct env.hash cache.map)
    (taken : cacheGc env now cache = some after) :
    KeysDistinct env.hash after.map ∧
      ∀ ptr, (∀ entry ∈ evicted env cache now, entry.2 ≠ ptr) → after.heap ptr = cache.heap ptr := by
  rw [cacheGc] at taken
  obtain ⟨⟨removed, middle⟩, success, same⟩ := Option.map_eq_some_iff.mp taken
  cases same
  obtain ⟨map, heap, inside⟩ := evict_frame success
  have permuted : ∀ entry, entry ∈ (sortMap env cache).map ↔ entry ∈ cache.map :=
    fun entry => (env.qsort_perm _ _).mem_iff
  have sorted : KeysDistinct env.hash (sortMap env cache).map :=
    distinct.subset fun entry member => (permuted entry).mp member
  have unchanged : ∀ entry ∈ middle.map, entry ∈ (sortMap env cache).map :=
    fun entry member => by rwa [map] at member
  obtain ⟨smaller, freed⟩ := removeKeys_heap removed (sortMap env cache).map sorted unchanged inside
  refine ⟨sorted.subset smaller, ?_⟩
  intro ptr other
  have listed : evicted env cache now = removed := by
    simp [evicted, success]
  rw [listed] at other
  exact (freed ptr other).trans (congrFun heap ptr)

theorem inUse_of_held (member : found ∈ world.held) : inUse world found.1 = true :=
  List.any_eq_true.mpr ⟨found, member, by simp⟩

theorem Inv.find (inv : Inv env world) (untouched : Untouched env world (.find tmpl now))
    (taken : perform env world (.find tmpl now) = some next) : Inv env next := by
  simp only [perform, cacheFind] at taken
  cases found : StrMap.find env.hash world.cache.map tmpl with
  | none =>
    rw [found] at taken
    cases taken
    exact ⟨inv.distinct, inv.kept⟩
  | some ptr =>
    rw [found] at taken
    obtain ⟨⟨result, cache⟩, stamped, taken⟩ := Option.bind_eq_some_iff.mp taken
    obtain ⟨module, present, same⟩ := Option.map_eq_some_iff.mp stamped
    cases same
    simp only [alloc, if_true, Option.map_some, Option.some.injEq] at taken
    subst taken
    refine ⟨inv.distinct, ?_⟩
    intro other member
    rcases List.mem_cons.mp member with rfl | earlier
    · exact if_pos rfl
    · dsimp only
      by_cases here : other.1 = ptr
      · have kept := inv.kept other earlier
        rw [here, present, Option.some.injEq] at kept
        have second := untouched ptr module found (here ▸ inUse_of_held earlier) present
        rw [if_pos here, ← kept, ← second]
      · rw [if_neg here]
        exact inv.kept other earlier

theorem Inv.gc (inv : Inv env world)
    (spared : ∀ entry ∈ evicted env world.cache now, inUse world entry.2 = false)
    (taken : cacheGc env now world.cache = some cache) : Inv env { world with cache := cache } := by
  obtain ⟨distinct, heap⟩ := cacheGc_spec inv.distinct taken
  refine ⟨distinct, ?_⟩
  intro found (member : found ∈ world.held)
  rw [heap found.1]
  · exact inv.kept found member
  · intro entry inside same
    have free := spared entry inside
    rw [same, inUse_of_held member] at free
    cases free

/-- Writing to memory no held module lies in keeps the invariant. -/
theorem Inv.alloc (inv : Inv env world) (apart : inUse world ptr = false) (module : Module) :
    Inv env { world with cache := alloc world.cache ptr module } := by
  refine ⟨inv.distinct, ?_⟩
  intro found (member : found ∈ world.held)
  have other : found.1 ≠ ptr := by
    intro same
    rw [← same, inUse_of_held member] at apart
    cases apart
  exact (if_neg other).trans (inv.kept found member)

theorem Inv.collect (inv : Inv env world)
    (spared : shouldGc world.cache = true →
      ∀ entry ∈ evicted env world.cache now, inUse world entry.2 = false)
    (taken : collect env now world.cache = some cache) :
    Inv env { world with cache := cache } := by
  unfold Simple.collect at taken
  split at taken
  · rename_i full
    exact inv.gc (spared full) taken
  · cases taken
    exact inv

/-- A key that is not there stays apart from the others. -/
theorem KeysDistinct.add {hash : StringHash} {map added : StrMap Nat}
    (distinct : KeysDistinct hash map) (success : StrMap.add hash map tmpl ptr = .ok added) :
    KeysDistinct hash added := by
  obtain ⟨absent, rfl⟩ := StrMap.add_ok success
  have separate : ∀ entry ∈ map, stringEq hash entry.1 tmpl = false := by
    intro entry member
    have none := List.find?_eq_none.mp (Option.map_eq_none_iff.mp absent) entry member
    simpa using none
  intro left leftMember right rightMember equal
  rcases List.mem_append.mp leftMember with leftOld | leftNew
  · rcases List.mem_append.mp rightMember with rightOld | rightNew
    · exact distinct left leftOld right rightOld equal
    · rw [List.mem_singleton.mp rightNew, separate left leftOld] at equal
      cases equal
  · rcases List.mem_append.mp rightMember with rightOld | rightNew
    · have turned := stringEq_symm equal
      rw [List.mem_singleton.mp leftNew, separate right rightOld] at turned
      cases turned
    · rw [List.mem_singleton.mp leftNew, List.mem_singleton.mp rightNew]

theorem Inv.add (inv : Inv env world) (untouched : Untouched env world (.add tmpl module ptr now due))
    (taken : perform env world (.add tmpl module ptr now due) = some next) : Inv env next := by
  simp only [perform] at taken
  split at taken
  · cases taken
  · rename_i fresh
    have unused : inUse world ptr = false := by
      rw [inUse, List.any_eq_false]
      intro found member
      have kept := inv.kept found member
      simp only [beq_iff_eq]
      rintro rfl
      rw [kept] at fresh
      exact fresh rfl
    obtain ⟨⟨result, cache⟩, success, same⟩ := Option.map_eq_some_iff.mp taken
    cases same
    have allocated := inv.alloc unused module
    rw [cacheAdd] at success
    obtain ⟨collected, gc, success⟩ := Option.bind_eq_some_iff.mp success
    have afterGc : Inv env { world with cache := collected } := allocated.collect untouched gc
    obtain ⟨stored, -, success⟩ := Option.map_eq_some_iff.mp success
    dsimp only at success
    have stamped := afterGc.alloc unused { stored with ts := now }
    split at success
    · cases success
      exact ⟨stamped.distinct, stamped.kept⟩
    · rename_i map added
      cases success
      exact ⟨stamped.distinct.add added, stamped.kept⟩

theorem perform_of_step (taken : step env world operation = some next) :
    perform env world operation = some next := by
  unfold step at taken
  split at taken
  · cases taken
  · exact taken

theorem Inv.step (inv : Inv env world) (untouched : Untouched env world operation)
    (taken : step env world operation = some next) : Inv env next := by
  have performed := perform_of_step taken
  cases operation with
  | find tmpl now => exact inv.find untouched performed
  | add tmpl module ptr now due => exact inv.add untouched performed
  | release ptr =>
    simp only [perform] at performed
    split at performed
    · cases performed
      exact ⟨inv.distinct, fun found member => inv.kept found (List.mem_of_mem_eraseP member)⟩
    · cases performed
  | gc now =>
    obtain ⟨cache, success, rfl⟩ := Option.map_eq_some_iff.mp performed
    exact inv.gc untouched success
  | reset =>
    cases performed
    exact ⟨fun left member => absurd member List.not_mem_nil, inv.kept⟩

/-- Where a key can be added, it is. -/
theorem cacheAdd_absent (gc : collect env now cache = some collected)
    (absent : StrMap.find env.hash collected.map tmpl = none)
    (taken : cacheAdd env now cache tmpl ptr = some (result, after)) : result = .ok () := by
  rw [cacheAdd, gc, Option.bind_some] at taken
  obtain ⟨stored, -, taken⟩ := Option.map_eq_some_iff.mp taken
  have added : StrMap.add env.hash collected.map tmpl ptr = .ok (collected.map ++ [(tmpl, ptr)]) := by
    rw [StrMap.add, absent]
  simp only [alloc, added] at taken
  cases taken
  rfl

/-- Only an add that is not admitted loses the map. -/
theorem mapped_step (mapped : world.lost = false) (admitted : Admitted env world operation)
    (taken : step env world operation = some next) : next.lost = false := by
  have performed := perform_of_step taken
  cases operation with
  | find tmpl now =>
    obtain ⟨⟨result, cache⟩, -, performed⟩ := Option.bind_eq_some_iff.mp performed
    cases result with
    | none =>
      cases performed
      exact mapped
    | some ptr =>
      obtain ⟨module, -, rfl⟩ := Option.map_eq_some_iff.mp performed
      exact mapped
  | add tmpl module ptr now due =>
    simp only [perform] at performed
    split at performed
    · cases performed
    · obtain ⟨⟨result, cache⟩, success, rfl⟩ := Option.map_eq_some_iff.mp performed
      cases due with
      | false => rfl
      | true =>
        have ran := success
        obtain ⟨collected, gc, -⟩ := Option.bind_eq_some_iff.mp ran
        rw [cacheAdd_absent gc (admitted rfl collected gc) success]
        rfl
  | release ptr =>
    simp only [perform] at performed
    split at performed
    · cases performed
      exact mapped
    · cases performed
  | gc now =>
    obtain ⟨cache, -, rfl⟩ := Option.map_eq_some_iff.mp performed
    exact mapped
  | reset =>
    cases performed
    exact mapped

theorem inv_openCache (env : Env) (heap : Nat → Option Module) (maxAge : ℚ)
    (maxSize maxEntries : UInt64) :
    Inv env ⟨openCache heap maxAge maxSize maxEntries, [], false⟩ := by
  constructor
  · exact fun left member => absurd member List.not_mem_nil
  · exact fun found member => absurd member List.not_mem_nil

end HandlebarsC.Simple
