import Mathlib.Algebra.Order.Ring.Nat
import HandlebarsC.Map.Compact

/-!
Rehashing a map: the copy has the same entries without holes, room for one more, and
as many free slots as it has no entries for.
-/

namespace HandlebarsC

namespace Map

variable {α : Type} {hash : StringHash} {map : Map α} {key : Str}
  {rehash : Map α → Bool → MapResult (Map α)}

/-- The largest vector that the table of capacities has a table for. -/
def maxCapacity : Nat := 966367645

/-- The table is the one that belongs to the vector. -/
def Sized (map : Map α) : Prop := chooseTableCapacity map.vecCapacity = some map.tableCapacity

theorem chooseTableCapacity_some (small : elements ≤ maxCapacity) :
    ∃ capacity, chooseTableCapacity elements = some capacity := by
  unfold maxCapacity at small
  refine Option.isSome_iff_exists.mp ?_
  unfold chooseTableCapacity maxLoadFactor
  refine List.find?_isSome.mpr ⟨1610612741, by decide, ?_⟩
  rw [decide_eq_true_eq]
  omega

theorem chooseTableCapacity_spec (chosen : chooseTableCapacity elements = some capacity) :
    elements * 100 / maxLoadFactor ≤ capacity ∧ 5 ≤ capacity ∧ elements ≤ maxCapacity := by
  have enough := List.find?_some chosen
  rw [decide_eq_true_eq] at enough
  have listed : ∀ listed ∈ capacityTable, 5 ≤ listed ∧ listed ≤ 1610612741 := by decide
  obtain ⟨smallest, largest⟩ := listed capacity (List.mem_of_find?_eq_some chosen)
  refine ⟨enough, smallest, ?_⟩
  unfold maxLoadFactor at enough
  unfold maxCapacity
  omega

/-- While the vector has room, the table is not overloaded. -/
theorem Sized.loadFactor_le (sized : Sized map) (room : map.i < map.vecCapacity) :
    map.loadFactor ≤ maxLoadFactor := by
  obtain ⟨table, smallest, -⟩ := chooseTableCapacity_spec sized
  unfold maxLoadFactor at table
  rw [loadFactor, maxLoadFactor]
  apply Nat.le_of_lt_succ
  rw [Nat.div_lt_iff_lt_mul (by omega)]
  omega

theorem Sized.capacity_lt (sized : Sized map) : map.vecCapacity < map.tableCapacity := by
  obtain ⟨table, smallest, -⟩ := chooseTableCapacity_spec sized
  unfold maxLoadFactor at table
  omega

theorem Valid.i_le (valid : Valid hash map) : map.i ≤ map.vecOffset := by
  rw [valid.counted, entries]
  refine Nat.le_trans (List.length_filterMap_le _ _) ?_
  rw [List.length_take]
  exact Nat.min_le_left _ _

/-- A power of two above the count. -/
theorem lt_chosen (count : Nat) : count < 2 ^ chooseVecCapacityLog2 count := by
  rw [chooseVecCapacityLog2]
  exact Nat.lt_of_le_of_lt Nat.left_le_or Nat.lt_log2_self

/-- The most entries for which a rehash finds a table. -/
def maxCount : Nat := 2 ^ 29 - 2

theorem chosen_le {count : Nat} (small : count ≤ maxCount + 1) :
    2 ^ chooseVecCapacityLog2 count ≤ maxCapacity := by
  have below : count ||| 3 < 2 ^ 29 := by
    refine Nat.or_lt_two_pow ?_ (by decide)
    unfold maxCount at small
    omega
  have nonzero : count ||| 3 ≠ 0 := by
    have : 3 ≤ count ||| 3 := Nat.right_le_or
    omega
  have bits := (Nat.log2_lt nonzero).mpr below
  rw [chooseVecCapacityLog2]
  exact Nat.le_trans (Nat.pow_le_pow_right (by decide) (by omega)) (show 2 ^ 29 ≤ _ by decide)

/-- What a rehash that copies the map makes of it. -/
structure Fresh (hash : StringHash) (before after : Map α) : Prop where
  valid : Valid hash after
  sized : Sized after
  pairs : after.pairs = before.pairs
  dense : after.vecOffset = after.i
  room : after.vecOffset < after.vecCapacity
  free : after.free + after.vecOffset = after.tableCapacity
  isInIteration : after.isInIteration = false

/-- Nothing calls for a rehash. -/
structure Calm (map : Map α) : Prop where
  isInIteration : map.isInIteration = false
  refcount : map.refcount ≤ 1
  room : map.vecOffset < map.vecCapacity
  loadFactor : map.loadFactor ≤ maxLoadFactor

theorem rehashWith_calm (calm : Calm map) : rehashWith rehash hash map false = .ok map := by
  have notFull : (map.vecOffset == map.vecCapacity) = false := by
    rw [beq_eq_false_iff_ne]
    exact Nat.ne_of_lt calm.room
  have notShared : ¬map.refcount > 1 := Nat.not_lt.mpr calm.refcount
  have notLoaded : ¬map.loadFactor > maxLoadFactor := Nat.not_lt.mpr calm.loadFactor
  rw [rehashWith, calm.isInIteration]
  simp [notFull, notShared, notLoaded]

/-- Putting in an entry with a new key, where the vector and the table have room. -/
theorem addAfter_absent (calm : rehash map false = .ok map) (valid : Valid hash map)
    (room : map.vecOffset < map.vecCapacity) (free : 0 < map.free)
    (absent : Absent hash map key) (value : α) :
    ∃ offset, addAfter rehash hash map key value = .ok (map.appended key value offset) ∧
      map.table[offset]? = some .null ∧ Valid hash (map.appended key value offset) := by
  obtain ⟨ret, found, noEntry, search⟩ := valid.findEntry_absent absent
  obtain ⟨emptyFound, slot, reached⟩ := search (free_pos free)
  refine ⟨ret.emptyOffset, ?_, slot, valid.appended room absent slot reached value⟩
  rw [addAfter, calm]
  change (findEntry hash map key >>= _) = _
  rw [found]
  change (if ret.entry.isSome || !ret.emptyFound then _ else _) = _
  rw [noEntry, emptyFound]
  exact addAtTableOffset_eq room slot value

theorem pairs_appended (room : map.vecOffset < map.vecCapacity) :
    (map.appended key value offset).pairs = map.pairs ++ [(key, value)] := by
  rw [pairs, entries_appended room, List.map_append]
  rfl

theorem absent_iff_pairs : Absent hash map key ↔
    ∀ pair ∈ map.pairs, stringEq hash pair.1 key = false := by
  rw [absent_iff, pairs]
  simp only [List.forall_mem_map]

/-- The copying loop, from a map that has room for all that is still to come. -/
theorem addAll_spec (calm : ∀ map, Calm map → rehash map false = .ok map)
    (row : List (MapEntry α)) (valid : Valid hash map) (sized : Sized map)
    (fresh : map.isInIteration = false ∧ map.refcount = 0)
    (dense : map.vecOffset = map.i) (room : map.vecOffset + row.length ≤ map.vecCapacity)
    (free : map.free + map.vecOffset = map.tableCapacity)
    (distinct : row.Pairwise fun left right => stringEq hash left.key right.key = false)
    (absent : ∀ entry ∈ row, Absent hash map entry.key) :
    ∃ after, addAll rehash hash map row = .ok after ∧ Valid hash after ∧
      after.pairs = map.pairs ++ row.map (fun entry => (entry.key, entry.value)) ∧
      after.isInIteration = false ∧ after.refcount = 0 ∧ after.vecOffset = after.i ∧
      after.vecOffset = map.vecOffset + row.length ∧ after.vecCapacity = map.vecCapacity ∧
      after.tableCapacity = map.tableCapacity ∧
      after.free + after.vecOffset = after.tableCapacity := by
  induction row generalizing map with
  | nil =>
    exact ⟨map, rfl, valid, (List.append_nil _).symm, fresh.1, fresh.2, dense, rfl, rfl, rfl, free⟩
  | cons entry rest ih =>
    rw [List.length_cons] at room
    have small := sized.capacity_lt
    have here : map.vecOffset < map.vecCapacity := by omega
    obtain ⟨offset, added, slot, validAfter⟩ := addAfter_absent
      (calm map ⟨fresh.1, by rw [fresh.2]; exact Nat.zero_le 1, here,
        sized.loadFactor_le (by omega)⟩) valid here
      (by omega) (absent entry List.mem_cons_self) entry.value
    have freeAfter := free_appended entry.key entry.value slot
    have tableAfter : (map.appended entry.key entry.value offset).tableCapacity =
        map.tableCapacity := List.length_set
    have vecAfter : (map.appended entry.key entry.value offset).vecCapacity = map.vecCapacity :=
      List.length_set
    rw [List.pairwise_cons] at distinct
    have offsetAfter : (map.appended entry.key entry.value offset).vecOffset =
        map.vecOffset + 1 := rfl
    have absentAfter : ∀ later ∈ rest,
        Absent hash (map.appended entry.key entry.value offset) later.key := by
      intro later member
      rw [absent_iff, entries_appended here]
      intro other inside
      rcases List.mem_append.mp inside with old | new
      · exact absent_iff.mp (absent later (List.mem_cons_of_mem _ member)) other old
      · rw [List.mem_singleton.mp new]
        exact distinct.1 later member
    obtain ⟨after, copied, result⟩ := ih
      validAfter (by rw [Sized, vecAfter, tableAfter]; exact sized) fresh
      (congrArg (· + 1) dense) (by rw [vecAfter, offsetAfter]; omega)
      (by rw [tableAfter, offsetAfter]; omega) distinct.2 absentAfter
    obtain ⟨valid, pairs, inIteration, refcount, dense, vecOffset, vec, table, free⟩ := result
    refine ⟨after, ?_, valid, ?_, inIteration, refcount, dense, ?_, vec.trans vecAfter,
      table.trans tableAfter, free⟩
    · rw [addAll, added]
      exact copied
    · rw [pairs, pairs_appended here, List.append_assoc, List.map_cons]
      rfl
    · rw [vecOffset, offsetAfter, List.length_cons]
      omega

/-- A copy has the entries of the map in their order. -/
theorem copyCtorWith_spec (rehash : Map α → Bool → MapResult (Map α))
    (calm : ∀ map, Calm map → rehash map false = .ok map)
    (valid : Valid hash map) (sized : Sized map) (wanted : newCapacity ≤ maxCapacity) :
    ∃ after, copyCtorWith rehash hash map newCapacity = .ok after ∧ Valid hash after ∧
      Sized after ∧ after.pairs = map.pairs ∧ after.isInIteration = false ∧ after.refcount = 0 ∧
      after.vecOffset = after.i ∧ after.i = map.i ∧
      after.vecCapacity = max newCapacity map.vecCapacity ∧
      after.free + after.vecOffset = after.tableCapacity := by
  have capacity : (if newCapacity < map.vecCapacity then map.vecCapacity else newCapacity) =
      max newCapacity map.vecCapacity := by
    split <;> omega
  have small : max newCapacity map.vecCapacity ≤ maxCapacity :=
    Nat.max_le.mpr ⟨wanted, (chooseTableCapacity_spec sized).2.2⟩
  obtain ⟨slots, chosen⟩ := chooseTableCapacity_some small
  obtain ⟨empty, created⟩ : ∃ empty : Map α,
      ctor (max newCapacity map.vecCapacity) = .ok empty := by
    rw [ctor, chosen]
    exact ⟨_, rfl⟩
  obtain ⟨validEmpty, noEntries, offset, vec, inIteration, refcount, table, free⟩ :=
    Valid.ctor hash created
  have counted := validEmpty.counted
  rw [noEntries] at counted
  have dense : empty.vecOffset = empty.i := by
    rw [offset, counted]
    rfl
  have sizedEmpty : Sized empty := by
    rw [Sized, vec]
    exact table
  have fits : map.entries.length ≤ map.vecCapacity := by
    rw [← valid.counted]
    exact Nat.le_trans valid.i_le valid.inside
  obtain ⟨after, copied, validAfter, pairs, inIterationAfter, refcountAfter, denseAfter,
      offsetAfter, vecAfter, tableAfter, freeAfter⟩ :=
    addAll_spec calm map.entries validEmpty sizedEmpty ⟨inIteration, refcount⟩ dense
      (by rw [offset, vec]; omega) (by rw [offset, free]; rfl) valid.keys_distinct (by
        intro entry _
        rw [absent_iff, noEntries]
        exact fun _ none => nomatch none)
  have pairsEmpty : empty.pairs = [] := by
    rw [Map.pairs, noEntries]
    rfl
  refine ⟨after, ?_, validAfter, ?_, ?_, inIterationAfter, refcountAfter, denseAfter, ?_,
    vecAfter.trans vec, freeAfter⟩
  · rw [copyCtorWith, capacity, created]
    exact copied
  · rw [Sized, vecAfter, tableAfter]
    exact sizedEmpty
  · rw [pairs, pairsEmpty]
    rfl
  · rw [← denseAfter, offsetAfter, offset, valid.counted, Nat.zero_add]

theorem rehashWithin_calm (depth : Nat) (calm : Calm map) :
    rehashWithin hash (depth + 1) map false = .ok map := rehashWith_calm calm

theorem calm_of_not (free : map.isInIteration = false)
    (untouched : ¬(map.refcount > 1 ∨ map.vecOffset = map.vecCapacity ∨
      map.loadFactor > maxLoadFactor)) (inside : map.vecOffset ≤ map.vecCapacity) :
    Calm map := by
  push Not at untouched
  exact ⟨free, untouched.1, Nat.lt_of_le_of_ne inside untouched.2.1, untouched.2.2⟩

/-- Rehashing leaves a map alone that is being iterated or that nothing calls for, and
else replaces it by a copy. -/
theorem rehash_spec (valid : Valid hash map) (sized : Sized map) (small : map.i ≤ maxCount)
    (force : Bool) :
    (Map.rehash hash map force = .ok map ∧
      (map.isInIteration = true ∨ force = false ∧ Calm map)) ∨
    ∃ after, Map.rehash hash map force = .ok after ∧ Fresh hash map after ∧
      after.refcount = min map.refcount 1 := by
  cases inIteration : map.isInIteration with
  | true =>
    left
    refine ⟨?_, .inl rfl⟩
    rw [Map.rehash, rehashWithin, rehashWith, inIteration]
    rfl
  | false =>
    by_cases called : force = true ∨ map.refcount > 1 ∨ map.vecOffset = map.vecCapacity ∨
        map.loadFactor > maxLoadFactor
    · right
      obtain ⟨copy, copied, validCopy, sizedCopy, pairs, inIterationCopy, refcount, dense, count,
          vec, free⟩ := copyCtorWith_spec (rehashWithin hash 1)
        (fun _ calm => rehashWithin_calm 0 calm) valid sized
        (chosen_le (by omega : map.i + 1 ≤ maxCount + 1))
      have room : copy.vecOffset < copy.vecCapacity := by
        have above := lt_chosen (map.i + 1)
        rw [vec, dense, count]
        omega
      have condition : (force || decide (map.refcount > 1) ||
          map.vecOffset == map.vecCapacity || decide (map.loadFactor > maxLoadFactor)) = true := by
        simp only [Bool.or_eq_true, decide_eq_true_eq, beq_iff_eq]
        rcases called with forced | shared | full | loaded
        · exact .inl (.inl (.inl forced))
        · exact .inl (.inl (.inr shared))
        · exact .inl (.inr full)
        · exact .inr loaded
      have result : Map.rehash hash map force =
          .ok (if map.refcount ≥ 1 then { copy with refcount := copy.refcount + 1 } else copy) := by
        rw [Map.rehash, rehashWithin, rehashWith, inIteration]
        simp only [Bool.false_eq_true, if_false, condition, if_true]
        rw [copied]
        rfl
      by_cases owned : map.refcount ≥ 1
      · rw [if_pos owned] at result
        refine ⟨_, result, ⟨⟨validCopy.inside, validCopy.counted, validCopy.pointed,
          validCopy.live, validCopy.reached, validCopy.distinct⟩, sizedCopy, pairs, dense, room,
          free, inIterationCopy⟩, ?_⟩
        dsimp only
        rw [refcount]
        omega
      · rw [if_neg owned] at result
        refine ⟨_, result, ⟨validCopy, sizedCopy, pairs, dense, room, free, inIterationCopy⟩, ?_⟩
        rw [refcount]
        omega
    · left
      rw [not_or] at called
      have notForced : force = false := Bool.eq_false_iff.mpr called.1
      have calm := calm_of_not inIteration called.2 valid.inside
      refine ⟨?_, .inr ⟨notForced, calm⟩⟩
      rw [notForced]
      exact rehashWithin_calm 1 calm

end Map

end HandlebarsC
