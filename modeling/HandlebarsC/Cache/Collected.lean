import HandlebarsC.Cache.Found
import HandlebarsC.Map.Correct

/-!
The counters of the simple cache and what a collection takes from it, over every history
of operations.
-/

namespace HandlebarsC.Simple

open Transition

/-- An environment whose `qsort` sorts. -/
structure SortEnv extends Env where
  qsort_sorted : ∀ compare map, Map.Orders compare →
    (qsort compare map).Pairwise fun left right => compare left right ≤ 0

abbrev Entry := Str × Nat

def stampOf (cache : Cache) (entry : Entry) : Int := (cache.heap entry.2).elim 0 (·.ts)

def moduleSize (cache : Cache) (entry : Entry) : Nat := (cache.heap entry.2).elim 0 (·.size)

def storedSize (cache : Cache) (entries : List Entry) : Nat :=
  (entries.map (moduleSize cache)).sum

/-- The counters are those of the entries, as a `size_t` counts. -/
structure Counts (cache : Cache) (stored : List Entry) : Prop where
  entries : cache.currentEntries = UInt64.ofNat stored.length
  size : cache.currentSize = UInt64.ofNat (storedSize cache stored)

/-- Entries that the limits of the cache do not allow at the same time. -/
def overLimits (cache : Cache) (entries : List Entry) : Bool :=
  (cache.maxSize > 0 && UInt64.ofNat (storedSize cache entries) > cache.maxSize) ||
    (cache.maxEntries > 0 && UInt64.ofNat entries.length > cache.maxEntries)

def Expired (cache : Cache) (now : Int) (entry : Entry) : Prop :=
  0 ≤ cache.maxAge ∧ cache.maxAge ≤ ((now - stampOf cache entry : Int) : ℚ)

/-- What a collection takes: the entries `gone`, in the order in which they go. -/
structure Evicted (cache : Cache) (now : Int) (gone kept : List Entry) : Prop where
  perm : (gone ++ kept).Perm cache.map
  oldest : ∀ old ∈ gone, ∀ young ∈ kept, stampOf cache old ≤ stampOf cache young
  needed : ∀ front entry back, gone = front ++ entry :: back →
    Expired cache now entry ∨ overLimits cache (entry :: back ++ kept) = true

/-- What holds after a collection. -/
structure Collected (cache : Cache) (now : Int) (after : Cache) : Prop where
  evicted : ∃ gone, Evicted cache now gone after.map
  kept : ∀ entry ∈ after.map, after.heap entry.2 = cache.heap entry.2
  others : ∀ ptr ∉ cache.map.map Prod.snd, after.heap ptr = cache.heap ptr
  fresh : ∀ entry ∈ after.map, ¬Expired after now entry
  limits : overLimits after after.map = false ∨ after.map = []

/-- The invariant: the entries lead to modules of their own, which are the ones counted. -/
structure Stored (cache : Cache) : Prop where
  present : ∀ entry ∈ cache.map, (cache.heap entry.2).isSome
  apart : (cache.map.map Prod.snd).Nodup
  counts : Counts cache cache.map

/-- As long as the modules fit in memory, the counters are exact. -/
theorem Counts.exact {cache : Cache} {entries : List Entry} (counts : Counts cache entries) :
    (entries.length < 2 ^ 64 → cache.currentEntries.toNat = entries.length) ∧
      (storedSize cache entries < 2 ^ 64 →
        cache.currentSize.toNat = storedSize cache entries) := by
  rw [counts.entries, counts.size]
  exact ⟨UInt64.toNat_ofNat_of_lt', UInt64.toNat_ofNat_of_lt'⟩

theorem storedSize_cons (cache : Cache) (entry : Entry) (rest : List Entry) :
    storedSize cache (entry :: rest) = moduleSize cache entry + storedSize cache rest :=
  List.sum_cons

theorem storedSize_perm {cache : Cache} {left right : List Entry} (perm : left.Perm right) :
    storedSize cache left = storedSize cache right :=
  (perm.map _).sum_nat

/-- The size depends on the modules of the entries only. -/
theorem storedSize_congr {cache other : Cache} {entries : List Entry}
    (same : ∀ entry ∈ entries, moduleSize other entry = moduleSize cache entry) :
    storedSize other entries = storedSize cache entries :=
  congrArg List.sum (List.map_congr_left same)

theorem shouldGc_eq {cache : Cache} {entries : List Entry} (counts : Counts cache entries) :
    shouldGc cache = overLimits cache entries := by
  unfold shouldGc overLimits
  rw [counts.entries, counts.size]

theorem shouldGcEntry_iff {cache : Cache} {entries : List Entry} (counts : Counts cache entries)
    (entry : Entry) (present : cache.heap entry.2 = some module) (now : Int) :
    shouldGcEntry cache module now = true ↔
      Expired cache now entry ∨ overLimits cache entries = true := by
  unfold shouldGcEntry Expired stampOf
  rw [present, shouldGc_eq counts]
  dsimp only [Option.elim_some]
  split
  · rename_i old
    rw [Bool.and_eq_true, decide_eq_true_eq, decide_eq_true_eq] at old
    exact iff_of_true rfl (.inl old)
  · rename_i young
    rw [Bool.and_eq_true, decide_eq_true_eq, decide_eq_true_eq] at young
    exact ⟨.inr, fun either => either.resolve_left young⟩

/-- A cache that differs from another only in its counters. -/
structure Recounted (cache other : Cache) : Prop where
  map : other.map = cache.map
  heap : other.heap = cache.heap
  maxAge : other.maxAge = cache.maxAge
  maxSize : other.maxSize = cache.maxSize
  maxEntries : other.maxEntries = cache.maxEntries

theorem Recounted.refl (cache : Cache) : Recounted cache cache := ⟨rfl, rfl, rfl, rfl, rfl⟩

theorem Recounted.trans {first second third : Cache} (front : Recounted first second)
    (rest : Recounted second third) : Recounted first third :=
  ⟨rest.map.trans front.map, rest.heap.trans front.heap, rest.maxAge.trans front.maxAge,
    rest.maxSize.trans front.maxSize, rest.maxEntries.trans front.maxEntries⟩

section Recounted

variable {cache other : Cache} (recounted : Recounted cache other)

include recounted

theorem Recounted.overLimits (entries : List Entry) :
    overLimits other entries = Simple.overLimits cache entries := by
  unfold Simple.overLimits storedSize moduleSize
  rw [recounted.heap, recounted.maxSize, recounted.maxEntries]

end Recounted

/-- The counters without one module. -/
def discount (cache : Cache) (size : Nat) : Cache :=
  { cache with
    currentEntries := cache.currentEntries - 1
    currentSize := cache.currentSize - UInt64.ofNat size }

/-- Counted out, the first entry leaves the counters right for the others. -/
theorem Counts.discount {cache : Cache} {entry : Entry} {rest : List Entry}
    (counts : Counts cache (entry :: rest)) (there : cache.heap entry.2 = some module) :
    Counts (discount cache module.size) rest := by
  have size : moduleSize cache entry = module.size := by
    unfold moduleSize
    rw [there]
    rfl
  constructor
  · change cache.currentEntries - 1 = _
    rw [counts.entries, List.length_cons, UInt64.ofNat_add]
    exact UInt64.add_sub_cancel _ _
  · change cache.currentSize - UInt64.ofNat module.size = UInt64.ofNat (storedSize cache rest)
    rw [counts.size, storedSize_cons, size, UInt64.ofNat_add, UInt64.add_comm]
    exact UInt64.add_sub_cancel _ _

/-- The loop of `cache_gc` over entries that are all there and are the ones counted. -/
theorem evict_spec (now : Int) (entries : List Entry) {cache : Cache}
    (present : ∀ entry ∈ entries, (cache.heap entry.2).isSome) (counts : Counts cache entries) :
    ∃ gone kept after, evict cache now entries = some (gone, after) ∧ entries = gone ++ kept ∧
      Recounted cache after ∧ Counts after kept ∧
      (∀ front entry back, gone = front ++ entry :: back →
        Expired cache now entry ∨ overLimits cache (entry :: back ++ kept) = true) ∧
      (kept = [] ∨ overLimits cache kept = false ∧
        ∃ entry rest, kept = entry :: rest ∧ ¬Expired cache now entry) := by
  induction entries generalizing cache with
  | nil =>
    refine ⟨[], [], cache, rfl, rfl, .refl cache, counts, ?_, .inl rfl⟩
    intro front entry back same
    exact absurd same (by simp)
  | cons entry rest ih =>
    obtain ⟨module, there⟩ := Option.isSome_iff_exists.mp (present entry List.mem_cons_self)
    obtain ⟨key, ptr⟩ := entry
    unfold evict
    rw [there, Option.bind_some]
    have decided := shouldGcEntry_iff counts (key, ptr) there now
    by_cases goes : shouldGcEntry cache module now = true
    · rw [if_pos goes]
      have fewer : Counts (discount cache module.size) rest := counts.discount there
      have recounted : Recounted cache (discount cache module.size) := ⟨rfl, rfl, rfl, rfl, rfl⟩
      have later : ∀ entry ∈ rest, ((discount cache module.size).heap entry.2).isSome :=
        fun entry member => present entry (List.mem_cons_of_mem _ member)
      obtain ⟨gone, kept, after, ran, split, same, counted, needed, stopped⟩ := ih later fewer
      refine ⟨(key, ptr) :: gone, kept, after, ?_, by rw [split]; rfl, recounted.trans same,
        counted, ?_, stopped⟩
      · change (evict (discount cache module.size) now rest).map _ = _
        rw [ran]
        rfl
      · intro front entry back order
        cases front with
        | nil =>
          obtain ⟨rfl, rfl⟩ := List.cons.inj order
          rw [List.cons_append, ← split]
          exact decided.mp goes
        | cons first front =>
          obtain ⟨-, later⟩ := List.cons.inj order
          exact needed front entry back later
    · rw [if_neg goes]
      have stays := mt decided.mpr goes
      rw [not_or] at stays
      refine ⟨[], (key, ptr) :: rest, cache, rfl, rfl, .refl cache, counts, ?_, .inr ⟨?_, ?_⟩⟩
      · intro front entry back same
        exact absurd same (by simp)
      · simpa using stays.2
      · exact ⟨_, _, rfl, stays.1⟩

/-- Removing the first entry of a map frees its module. -/
theorem removeKey_head (env : Env) {cache : Cache} {entry : Entry} {rest : List Entry}
    (first : cache.map = entry :: rest) :
    removeKey env cache entry.1 = { free cache entry.2 with map := rest } := by
  unfold removeKey StrMap.find StrMap.remove
  rw [first]
  simp

/-- Removing the entries at the front one after the other. -/
theorem removeKeys_front (env : Env) (gone kept : List Entry) {cache : Cache}
    (split : cache.map = gone ++ kept) :
    let final := gone.foldl (fun cache entry => removeKey env cache entry.1) cache
    Recounted { cache with map := kept, heap := final.heap } final ∧
      final.currentEntries = cache.currentEntries ∧ final.currentSize = cache.currentSize ∧
      ∀ ptr ∉ gone.map Prod.snd, final.heap ptr = cache.heap ptr := by
  induction gone generalizing cache with
  | nil =>
    have same : cache.map = kept := split
    exact ⟨⟨same, rfl, rfl, rfl, rfl⟩, rfl, rfl, fun _ _ => rfl⟩
  | cons entry rest ih =>
    rw [List.foldl_cons, removeKey_head env split]
    obtain ⟨same, entries, size, heap⟩ := @ih { free cache entry.2 with map := rest ++ kept } rfl
    refine ⟨⟨same.map, rfl, same.maxAge, same.maxSize, same.maxEntries⟩, entries, size, ?_⟩
    intro ptr other
    rw [List.map_cons, List.mem_cons, not_or] at other
    exact (heap ptr other.2).trans (if_neg other.1)

theorem compareTs_orders (heap : Nat → Option Module) : Map.Orders (compareTs heap) := by
  constructor
  · intro left right
    unfold compareTs
    dsimp only
    split <;> split <;> split <;> split <;> omega
  · intro left middle right
    unfold compareTs
    dsimp only
    split <;> split <;> split <;> split <;> split <;> split <;> omega

theorem compareTs_le (cache : Cache) (left right : Entry) :
    compareTs cache.heap left right ≤ 0 ↔ stampOf cache left ≤ stampOf cache right := by
  unfold compareTs stampOf
  dsimp only
  split <;> split <;> omega

/-- What a collection leaves of a sorted map: its entries from some place on. -/
structure Swept (cache : Cache) (now : Int) (gone kept : List Entry) (after : Cache) : Prop where
  map : after.map = kept
  heap : ∀ entry ∈ kept, after.heap entry.2 = cache.heap entry.2
  others : ∀ ptr ∉ cache.map.map Prod.snd, after.heap ptr = cache.heap ptr
  maxAge : after.maxAge = cache.maxAge
  counts : Counts after kept
  needed : ∀ front entry back, gone = front ++ entry :: back →
    Expired cache now entry ∨ overLimits cache (entry :: back ++ kept) = true
  stopped : kept = [] ∨ overLimits after kept = false ∧
    ∃ entry rest, kept = entry :: rest ∧ ¬Expired cache now entry

theorem cacheGc_swept (env : SortEnv) (now : Int) {cache : Cache} (stored : Stored cache) :
    ∃ gone kept after, cacheGc env.toEnv now cache = some after ∧
      (sortMap env.toEnv cache).map = gone ++ kept ∧ Swept cache now gone kept after := by
  have perm : (sortMap env.toEnv cache).map.Perm cache.map := env.qsort_perm _ _
  have present : ∀ entry ∈ (sortMap env.toEnv cache).map,
      ((sortMap env.toEnv cache).heap entry.2).isSome :=
    fun entry member => stored.present entry (perm.mem_iff.mp member)
  have counts : Counts (sortMap env.toEnv cache) (sortMap env.toEnv cache).map := by
    constructor
    · rw [perm.length_eq]
      exact stored.counts.entries
    · rw [storedSize_perm perm]
      exact stored.counts.size
  obtain ⟨gone, kept, middle, ran, split, same, counted, needed, stopped⟩ :=
    evict_spec now _ present counts
  have apart : ((gone ++ kept).map Prod.snd).Nodup := by
    rw [← split]
    exact (perm.map _).nodup_iff.mpr stored.apart
  rw [List.map_append] at apart
  obtain ⟨-, -, disjoint⟩ := List.nodup_append.mp apart
  obtain ⟨removed, entries, size, freed⟩ :=
    removeKeys_front env.toEnv gone kept (same.map.trans split)
  generalize final : gone.foldl (fun cache entry => removeKey env.toEnv cache entry.1) middle =
    after at removed entries size freed
  have collected : cacheGc env.toEnv now cache = some after := by
    unfold cacheGc
    dsimp only
    rw [ran, ← final]
    rfl
  have heap : ∀ entry ∈ kept, after.heap entry.2 = middle.heap entry.2 := by
    intro entry member
    exact freed _ fun inside => disjoint _ inside _ (List.mem_map_of_mem member) rfl
  have sizes : storedSize after kept = storedSize middle kept := by
    refine storedSize_congr fun entry member => ?_
    unfold moduleSize
    rw [heap entry member]
  refine ⟨gone, kept, after, collected, split, removed.map, ?_, ?_, ?_, ?_, needed, ?_⟩
  · intro entry member
    rw [heap entry member, same.heap]
    rfl
  · intro ptr outside
    refine (freed ptr fun inside => outside ?_).trans (congrFun same.heap ptr)
    rw [← (perm.map Prod.snd).mem_iff, split, List.map_append]
    exact List.mem_append_left _ inside
  · exact removed.maxAge.trans same.maxAge
  · exact ⟨entries.trans counted.entries, size.trans (counted.size.trans (by rw [sizes]))⟩
  · refine stopped.imp_right fun ⟨within, young⟩ => ⟨?_, young⟩
    rw [← within, ← same.overLimits]
    unfold overLimits
    rw [sizes, removed.maxSize, removed.maxEntries]

/-- A collection is defined, keeps the invariant and takes the oldest entries for cause. -/
theorem cacheGc_collected (env : SortEnv) (now : Int) {cache : Cache} (stored : Stored cache) :
    ∃ after, cacheGc env.toEnv now cache = some after ∧ Stored after ∧ Collected cache now after := by
  obtain ⟨gone, kept, after, collected, split, swept⟩ := cacheGc_swept env now stored
  have perm : (gone ++ kept).Perm cache.map := split ▸ env.qsort_perm _ _
  have sorted : (gone ++ kept).Pairwise
      fun left right => stampOf cache left ≤ stampOf cache right := by
    rw [← split]
    exact (env.qsort_sorted _ _ (compareTs_orders cache.heap)).imp fun {left right} =>
      (compareTs_le cache left right).mp
  obtain ⟨-, sortedKept, older⟩ := List.pairwise_append.mp sorted
  have expired : ∀ entry ∈ kept, Expired after now entry → Expired cache now entry := by
    intro entry member
    unfold Expired stampOf
    rw [swept.heap entry member, swept.maxAge]
    exact id
  refine ⟨after, collected, ?_, ?_⟩
  · constructor
    · intro entry member
      rw [swept.map] at member
      rw [swept.heap entry member]
      exact stored.present entry (perm.mem_iff.mp (List.mem_append_right _ member))
    · rw [swept.map]
      have apart := (perm.map Prod.snd).nodup_iff.mpr stored.apart
      rw [List.map_append] at apart
      exact (List.nodup_append.mp apart).2.1
    · rw [swept.map]
      exact swept.counts
  · refine ⟨⟨gone, ?_⟩, ?_, swept.others, ?_, ?_⟩
    · rw [swept.map]
      exact ⟨perm, older, swept.needed⟩
    · rw [swept.map]
      exact swept.heap
    · rw [swept.map]
      intro entry member old
      rcases swept.stopped with none | ⟨-, first, rest, same, young⟩
      · rw [none] at member
        cases member
      · have aged := expired entry member old
        rw [same] at member sortedKept
        apply young
        rcases List.mem_cons.mp member with rfl | later
        · exact aged
        · have order := List.rel_of_pairwise_cons sortedKept later
          refine ⟨aged.1, aged.2.trans ?_⟩
          have stamps : now - stampOf cache entry ≤ now - stampOf cache first := by omega
          exact_mod_cast stamps
    · rw [swept.map]
      exact swept.stopped.symm.imp_left And.left

/-- Writing a module where none of the entries lead. -/
theorem stored_alloc {cache : Cache} (stored : Stored cache) (apart : cache.heap ptr = none)
    (module : Module) : Stored (alloc cache ptr module) := by
  have same : ∀ entry ∈ cache.map, (alloc cache ptr module).heap entry.2 =
      cache.heap entry.2 := by
    intro entry member
    refine if_neg fun here => ?_
    have present := stored.present entry member
    rw [here, apart] at present
    cases present
  constructor
  · intro entry member
    rw [same entry member]
    exact stored.present entry member
  · exact stored.apart
  · refine ⟨stored.counts.entries, stored.counts.size.trans (congrArg UInt64.ofNat ?_)⟩
    refine (storedSize_congr fun entry member => ?_).symm
    unfold moduleSize
    rw [same entry member]

/-- A module keeps its size when it is stamped. -/
theorem stored_stamp {cache : Cache} (stored : Stored cache) (found : cache.heap ptr = some module)
    (now : Int) : Stored (alloc cache ptr { module with ts := now }) := by
  have same : ∀ entry, moduleSize (alloc cache ptr { module with ts := now }) entry =
      moduleSize cache entry := by
    intro entry
    unfold moduleSize
    by_cases here : entry.2 = ptr
    · rw [here, found]
      change ((if ptr = ptr then some { module with ts := now } else _) : Option Module).elim 0 _ = _
      rw [if_pos rfl]
      rfl
    · change ((if entry.2 = ptr then some { module with ts := now } else _) : Option Module).elim 0 _ = _
      rw [if_neg here]
  constructor
  · intro entry member
    change ((if entry.2 = ptr then some { module with ts := now }
      else cache.heap entry.2) : Option Module).isSome
    split
    · rfl
    · exact stored.present entry member
  · exact stored.apart
  · refine ⟨stored.counts.entries, stored.counts.size.trans (congrArg UInt64.ofNat ?_)⟩
    exact (storedSize_congr fun entry _ => same entry).symm

theorem stored_find (env : Env) {cache : Cache} (stored : Stored cache) (now : Int) (tmpl : Str) :
    ∃ result after, cacheFind env now cache tmpl = some (result, after) ∧ Stored after ∧
      ∀ ptr, result = some ptr → (after.heap ptr).isSome := by
  unfold cacheFind
  cases found : StrMap.find env.hash cache.map tmpl with
  | none => exact ⟨none, _, rfl, ⟨stored.present, stored.apart,
      stored.counts.entries, stored.counts.size⟩, nofun⟩
  | some ptr =>
    obtain ⟨key, member, -⟩ := StrMap.find_some found
    obtain ⟨module, there⟩ := Option.isSome_iff_exists.mp (stored.present _ member)
    have stamped := stored_stamp stored there now
    dsimp only at there
    dsimp only
    rw [there]
    refine ⟨some ptr, _, rfl, ⟨stamped.present, stamped.apart,
      stamped.counts.entries, stamped.counts.size⟩, ?_⟩
    rintro other same
    cases same
    exact stamped.present _ member

/-- The part of `cache_add` after the collection. -/
theorem stored_insert (env : Env) {cache : Cache} (stored : Stored cache)
    (there : cache.heap ptr = some module) (outside : ptr ∉ cache.map.map Prod.snd)
    (success : StrMap.add env.hash cache.map tmpl ptr = .ok map) (now : Int) :
    Stored { alloc cache ptr { module with ts := now } with
      map := map
      currentEntries := cache.currentEntries + 1
      currentSize := cache.currentSize + UInt64.ofNat module.size } := by
  obtain ⟨-, rfl⟩ := StrMap.add_ok success
  have stamped := stored_stamp stored there now
  have here : (alloc cache ptr { module with ts := now }).heap ptr =
      some { module with ts := now } := if_pos rfl
  constructor
  · intro entry member
    rcases List.mem_append.mp member with old | new
    · exact stamped.present entry old
    · rw [List.mem_singleton.mp new]
      exact Option.isSome_iff_exists.mpr ⟨_, here⟩
  · rw [List.map_append]
    refine List.nodup_append.mpr ⟨stored.apart, List.nodup_singleton _, ?_⟩
    intro addr old other new same
    rw [List.map_singleton, List.mem_singleton] at new
    rw [same, new] at old
    exact outside old
  · constructor
    · change cache.currentEntries + 1 = _
      rw [stored.counts.entries, List.length_append, UInt64.ofNat_add]
      rfl
    · change cache.currentSize + UInt64.ofNat module.size =
        UInt64.ofNat (storedSize (alloc cache ptr { module with ts := now })
          (cache.map ++ [(tmpl, ptr)]))
      have added : storedSize (alloc cache ptr { module with ts := now })
          (cache.map ++ [(tmpl, ptr)]) =
          storedSize (alloc cache ptr { module with ts := now }) cache.map + module.size := by
        unfold storedSize
        rw [List.map_append, List.sum_append_nat, List.map_singleton, List.sum_singleton]
        unfold moduleSize
        rw [here]
        rfl
      rw [added, UInt64.ofNat_add]
      exact congrArg (· + UInt64.ofNat module.size) stamped.counts.size

theorem stored_add (env : SortEnv) {cache : Cache} (stored : Stored cache)
    (fresh : cache.heap ptr = none) (module : Module) (now : Int) (tmpl : Str) :
    ∃ result after, cacheAdd env.toEnv now (alloc cache ptr module) tmpl ptr =
      some (result, after) ∧ Stored after := by
  have allocated := stored_alloc stored fresh module
  have unused : ptr ∉ (alloc cache ptr module).map.map Prod.snd := by
    intro member
    obtain ⟨entry, inside, same⟩ := List.mem_map.mp member
    have present := stored.present entry inside
    rw [same, fresh] at present
    cases present
  have collected : ∃ collected,
      collect env.toEnv now (alloc cache ptr module) = some collected ∧ Stored collected ∧
      collected.heap ptr = some module ∧ ptr ∉ collected.map.map Prod.snd := by
    have there : (alloc cache ptr module).heap ptr = some module := if_pos rfl
    unfold collect
    by_cases full : shouldGc (alloc cache ptr module) = true
    · obtain ⟨after, ran, kept, collected⟩ := cacheGc_collected env now allocated
      obtain ⟨gone, evicted⟩ := collected.evicted
      rw [if_pos full]
      refine ⟨after, ran, kept, (collected.others ptr unused).trans there, fun member => unused ?_⟩
      rw [← (evicted.perm.map Prod.snd).mem_iff, List.map_append]
      exact List.mem_append_right _ member
    · rw [if_neg full]
      exact ⟨_, rfl, allocated, there, unused⟩
  obtain ⟨collected, ran, kept, there, outside⟩ := collected
  unfold cacheAdd
  rw [ran, Option.bind_some, there, Option.map_some]
  dsimp only
  cases added : StrMap.add env.hash (alloc collected ptr { module with ts := now }).map tmpl ptr with
  | error error => exact ⟨_, _, rfl, stored_stamp kept there now⟩
  | ok map => exact ⟨_, _, rfl, stored_insert env.toEnv kept there outside added now⟩

theorem stored_step (env : SortEnv) {world next : World} (stored : Stored world.cache)
    (taken : Step env.toEnv world operation next) : Stored next.cache := by
  replace taken := perform_of_step taken
  unfold perform at taken
  cases operation with
  | find tmpl now =>
    obtain ⟨result, after, ran, kept, there⟩ := stored_find env.toEnv stored now tmpl
    dsimp only at taken
    rw [ran, Option.bind_some] at taken
    cases result with
    | none =>
      cases taken
      exact kept
    | some ptr =>
      obtain ⟨module, -, rfl⟩ := Option.map_eq_some_iff.mp taken
      exact kept
  | add tmpl module ptr now due =>
    dsimp only at taken
    by_cases used : (world.cache.heap ptr).isSome = true
    · rw [if_pos used] at taken
      cases taken
    · rw [if_neg used] at taken
      have fresh : world.cache.heap ptr = none := Option.not_isSome_iff_eq_none.mp used
      obtain ⟨result, after, ran, kept⟩ := stored_add env stored fresh module now tmpl
      rw [ran] at taken
      cases taken
      exact kept
  | release ptr =>
    dsimp only at taken
    split at taken
    · cases taken
      exact stored
    · cases taken
  | gc now =>
    obtain ⟨after, ran, kept, -⟩ := cacheGc_collected env now stored
    dsimp only at taken
    rw [ran] at taken
    cases taken
    exact kept
  | reset =>
    cases taken
    exact ⟨nofun, List.nodup_nil, rfl, rfl⟩

/-- In every run the counters of the cache count what is stored in it, exactly as long as that
fits in memory, and a collection at any time leaves what is fresh within the limits, having
taken the least recently used entries and none without cause. -/
theorem simple_cache_collects (env : SortEnv) (heap : Nat → Option Module) (maxAge : ℚ)
    (maxSize maxEntries : UInt64)
    (run : Run (Step env.toEnv) ⟨openCache heap maxAge maxSize maxEntries, [], false⟩ operations world) :
    Counts world.cache world.cache.map ∧
      (world.cache.map.length < 2 ^ 64 →
        world.cache.currentEntries.toNat = world.cache.map.length) ∧
      (storedSize world.cache world.cache.map < 2 ^ 64 →
        world.cache.currentSize.toNat = storedSize world.cache world.cache.map) ∧
      ∀ now, ∃ after, cacheGc env.toEnv now world.cache = some after ∧ Counts after after.map ∧
        Collected world.cache now after := by
  have stored : Stored world.cache := by
    apply run.invariant (fun world => Stored world.cache) ?_ ⟨nofun, List.nodup_nil, rfl, rfl⟩
    intro state operation next stored taken
    exact stored_step env stored taken
  refine ⟨stored.counts, stored.counts.exact.1, stored.counts.exact.2, fun now => ?_⟩
  obtain ⟨after, ran, kept, collected⟩ := cacheGc_collected env now stored
  exact ⟨after, ran, kept.counts, collected⟩

/-- Insertion sort makes an environment. -/
def insertionEnv : SortEnv where
  toEnv := sortingEnv
  qsort_sorted compare map orders := by
    have total : Std.Total fun left right : Entry => compare left right ≤ 0 :=
      ⟨fun left right => by
        have turned := orders.symm left right
        omega⟩
    have trans : IsTrans Entry fun left right => compare left right ≤ 0 :=
      ⟨fun left middle right => orders.trans left middle right⟩
    exact List.pairwise_insertionSort _ map

theorem simple_cache_collects_runs : ∃ world after,
    Run (Step insertionEnv.toEnv) oneEntry
      [.add (bytes "a") Mmap.freshModule 1 0 false, .add (bytes "bb") Mmap.freshModule 2 1 false,
        .find (bytes "a") 2] world ∧
    world.cache.map = [(bytes "a", 1), (bytes "bb", 2)] ∧
    cacheGc insertionEnv.toEnv 5 world.cache = some after ∧ after.map = [(bytes "a", 1)] ∧
    Counts after after.map ∧ Collected world.cache 5 after := by
  have run : ∃ world after, Run (Step insertionEnv.toEnv) oneEntry
      [.add (bytes "a") Mmap.freshModule 1 0 false, .add (bytes "bb") Mmap.freshModule 2 1 false,
        .find (bytes "a") 2] world ∧
      world.cache.map = [(bytes "a", 1), (bytes "bb", 2)] ∧
      cacheGc insertionEnv.toEnv 5 world.cache = some after ∧ after.map = [(bytes "a", 1)] :=
    ⟨_, _, .cons rfl (.cons rfl (.cons rfl (.nil _))), rfl, rfl, rfl⟩
  obtain ⟨world, after, run, stored, ran, left⟩ := run
  obtain ⟨-, -, -, collects⟩ := simple_cache_collects insertionEnv _ _ _ _ run
  obtain ⟨other, same, counts, collected⟩ := collects 5
  rw [ran, Option.some.injEq] at same
  subst same
  exact ⟨world, after, run, stored, ran, left, counts, collected⟩

end HandlebarsC.Simple
