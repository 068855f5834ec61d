import HandlebarsC.Map.Steps

/-!
Compaction moves entries down over the holes and repairs the slots that point at them.
Its write cursor starts right only if the first hole is the second place.
-/

namespace HandlebarsC

namespace Map

variable {α : Type} {hash : StringHash} {map : Map α} {key : Str} {i : Nat}
  {table : List MapSlot} {vec : List (Option (MapEntry α))}

theorem isSparse_eq_false : map.isSparse = false ↔ map.i = map.vecOffset := by
  rw [isSparse, bne_eq_false_iff_eq]
  exact eq_comm

/-- The keys and values, in their order. -/
def pairs (map : Map α) : StrMap α := map.entries.map fun entry => (entry.key, entry.value)

/-- Points the slots of a row of entries at the places they have from `start` on. -/
def pointFrom (table : List MapSlot) : Nat → List (MapEntry α) → List MapSlot
  | _, [] => table
  | start, entry :: rest => pointFrom (table.set entry.tableOffset (.entry start)) (start + 1) rest

@[simp] theorem pointFrom_length (table : List MapSlot) (start : Nat) (row : List (MapEntry α)) :
    (pointFrom table start row).length = table.length := by
  induction row generalizing table start with
  | nil => rfl
  | cons entry rest ih => rw [pointFrom, ih, List.length_set]

theorem pointFrom_other (row : List (MapEntry α)) (start : Nat)
    (other : ∀ entry ∈ row, entry.tableOffset ≠ offset) :
    (pointFrom table start row)[offset]? = table[offset]? := by
  induction row generalizing table start with
  | nil => rfl
  | cons entry rest ih =>
    rw [pointFrom, ih (start + 1) fun later member => other later (List.mem_cons_of_mem _ member)]
    exact List.getElem?_set_ne (other entry List.mem_cons_self)

/-- Each entry of a row with slots of its own is pointed at. -/
theorem pointFrom_own {entry : MapEntry α} (row : List (MapEntry α)) (start : Nat)
    (inTable : ∀ entry ∈ row, entry.tableOffset < table.length)
    (different : (row.map MapEntry.tableOffset).Nodup) (present : row[index]? = some entry) :
    (pointFrom table start row)[entry.tableOffset]? = some (.entry (start + index)) := by
  induction row generalizing table start index with
  | nil => cases present
  | cons head rest ih =>
    rw [List.map_cons, List.nodup_cons] at different
    rw [pointFrom]
    cases index with
    | zero =>
      cases present
      rw [pointFrom_other rest]
      · exact List.getElem?_set_self (inTable _ List.mem_cons_self)
      · intro later member same
        exact different.1 (List.mem_map.mpr ⟨later, member, same⟩)
    | succ index =>
      rw [ih (start + 1) ?_ different.2 present]
      · rw [Nat.add_assoc, Nat.add_comm 1 index]
      · intro later member
        rw [List.length_set]
        exact inTable later (List.mem_cons_of_mem _ member)

theorem filterMap_id_some (value : β) (list : List (Option β)) :
    (some value :: list).filterMap id = value :: list.filterMap id := rfl

/-- The loop writes the entries it meets one after another, and never overtakes itself. -/
theorem compactLoop_spec (left i vecOffset : Nat) (vec : List (Option (MapEntry α)))
    (table : List MapSlot) (behind : vecOffset ≤ i) (inside : i + left ≤ vec.length) :
    ∃ after, compactLoop vec table left i vecOffset =
        (after, pointFrom table vecOffset (((vec.drop i).take left).filterMap id),
          vecOffset + (((vec.drop i).take left).filterMap id).length) ∧
      after.length = vec.length ∧
      after.take (vecOffset + (((vec.drop i).take left).filterMap id).length) =
        vec.take vecOffset ++ (((vec.drop i).take left).filterMap id).map some := by
  induction left generalizing i vecOffset vec table with
  | zero => exact ⟨vec, rfl, rfl, by simp⟩
  | succ left ih =>
    have bound : i < vec.length := by omega
    have split : (vec.drop i).take (left + 1) = vec[i] :: (vec.drop (i + 1)).take left := by
      rw [List.drop_eq_getElem_cons bound, List.take_succ_cons]
    rw [split, compactLoop]
    have slot : vec[i]?.join = vec[i] := by
      rw [List.getElem?_eq_getElem bound]
      rfl
    rw [slot]
    cases vec[i] with
    | none =>
      rw [List.filterMap_cons_none rfl]
      exact ih (i + 1) vecOffset vec table (by omega) (by omega)
    | some entry =>
      rw [filterMap_id_some]
      obtain ⟨after, result, length, packed⟩ := ih (i + 1) (vecOffset + 1)
        (vec.set vecOffset (some entry)) (table.set entry.tableOffset (.entry vecOffset))
        (by omega) (by rw [List.length_set]; omega)
      rw [List.drop_set_of_lt (by omega)] at result packed
      rw [List.length_set] at length
      have count : vecOffset + (entry ::
          ((vec.drop (i + 1)).take left).filterMap id).length =
          vecOffset + 1 + (((vec.drop (i + 1)).take left).filterMap id).length := by
        rw [List.length_cons]
        omega
      refine ⟨after, ?_, length, ?_⟩
      · rw [count]
        exact result
      · rw [count, packed, List.take_add_one, List.getElem?_set_self (by omega),
          List.take_set_of_le (Nat.le_refl _), List.append_assoc]
        rfl

/-- The first hole of the part of the vector that is in use. -/
def FirstHole (map : Map α) (index : Nat) : Prop :=
  index < map.vecOffset ∧ map.entryAt index = none ∧
    ∀ earlier < index, (map.entryAt earlier).isSome = true

theorem compactScan_hole (left : Nat) (bound : i ≤ index) (inside : index < i + left)
    (hole : vec[index]?.join = none)
    (before : ∀ earlier, i ≤ earlier → earlier < index → (vec[earlier]?.join).isSome = true) :
    compactScan vec left i = (index + 1, 1) := by
  induction left generalizing i with
  | zero => omega
  | succ left ih =>
    rw [compactScan]
    by_cases here : i = index
    · subst here
      rw [if_pos (by rw [hole]; rfl)]
    · rw [if_neg (by
        have := before i (Nat.le_refl i) (by omega)
        rw [Option.isNone_iff_eq_none]
        intro none
        rw [none] at this
        cases this)]
      exact ih (by omega) (by omega) fun earlier low high => before earlier (by omega) high

theorem filterMap_id_length (list : List (Option β)) (all : ∀ slot ∈ list, slot.isSome = true) :
    (list.filterMap id).length = list.length ∧ (list.filterMap id).map some = list := by
  induction list with
  | nil => exact ⟨rfl, rfl⟩
  | cons head tail ih =>
    obtain ⟨length, same⟩ := ih fun slot member => all slot (List.mem_cons_of_mem _ member)
    cases head with
    | none => cases all none List.mem_cons_self
    | some value =>
      rw [filterMap_id_some]
      exact ⟨congrArg (· + 1) length, congrArg (some value :: ·) same⟩

/-- The vector around its first hole. -/
theorem FirstHole.split (valid : Valid hash map) (hole : map.FirstHole index) :
    map.entries = (map.vec.take index).filterMap id ++
      ((map.vec.drop (index + 1)).take (map.vecOffset - (index + 1))).filterMap id ∧
    ((map.vec.take index).filterMap id).length = index ∧
    ((map.vec.take index).filterMap id).map some = map.vec.take index := by
  obtain ⟨bound, none, before⟩ := hole
  have inVec : index < map.vec.length := Nat.lt_of_lt_of_le bound valid.inside
  have all : ∀ slot ∈ map.vec.take index, slot.isSome = true := by
    intro slot member
    obtain ⟨place, inside, found⟩ := List.mem_take_iff_getElem.mp member
    have early := before place (by omega)
    rw [entryAt, List.getElem?_eq_getElem (by omega), found] at early
    exact early
  obtain ⟨length, same⟩ := filterMap_id_length _ all
  refine ⟨?_, ?_, same⟩
  · have gap : map.vec[index] = Option.none := by
      rw [entryAt, List.getElem?_eq_getElem inVec] at none
      exact none
    have whole : map.vec.take map.vecOffset = map.vec.take index ++
        (Option.none :: (map.vec.drop (index + 1)).take (map.vecOffset - (index + 1))) := by
      rw [← gap, ← List.take_succ_cons, ← List.drop_eq_getElem_cons inVec,
        show map.vecOffset - (index + 1) + 1 = map.vecOffset - index by omega, ← List.take_add]
      congr 1
      omega
    rw [entries, whole, List.filterMap_append, List.filterMap_cons_none rfl]
  · rw [length, List.length_take]
    exact Nat.min_eq_left (Nat.le_of_lt inVec)

/-- Compaction, from where the first hole is. -/
theorem sparseArrayCompact_spec (valid : Valid hash map) (sparse : map.isSparse = true)
    (hole : map.FirstHole index) :
    let moved := ((map.vec.drop (index + 1)).take (map.vecOffset - (index + 1))).filterMap id
    ∃ vec, map.sparseArrayCompact = { map with
        vec := vec, table := pointFrom map.table 1 moved, vecOffset := 1 + moved.length } ∧
      vec.length = map.vec.length ∧
      vec.take (1 + moved.length) = map.vec.take 1 ++ moved.map some := by
  intro moved
  have bound := hole.1
  have inside : map.vecOffset ≤ map.vec.length := valid.inside
  have scan : compactScan map.vec map.vecOffset 0 = (index + 1, 1) :=
    compactScan_hole map.vecOffset (Nat.zero_le _) (by omega) hole.2.1
      fun earlier _ order => hole.2.2 earlier order
  obtain ⟨vec, result, length, packed⟩ := compactLoop_spec (map.vecOffset - (index + 1)) (index + 1)
    1 map.vec map.table (by omega) (by omega)
  refine ⟨vec, ?_, length, packed⟩
  have notEqual : map.i ≠ map.vecOffset := by
    intro same
    rw [isSparse, same] at sparse
    simp at sparse
  rw [sparseArrayCompact, if_neg notEqual, scan]
  simp only [result]
  rfl

theorem exists_firstHole (valid : Valid hash map) (sparse : map.isSparse = true) :
    ∃ index, map.FirstHole index := by
  have hole : ∃ index, index < map.vecOffset ∧ map.entryAt index = none := by
    by_contra none
    push Not at none
    have all : ∀ slot ∈ map.vec.take map.vecOffset, slot.isSome = true := by
      intro slot member
      obtain ⟨place, inside, found⟩ := List.mem_take_iff_getElem.mp member
      have held := none place (by omega)
      rw [entryAt, List.getElem?_eq_getElem (by omega), found] at held
      exact Option.isSome_iff_ne_none.mpr held
    have length := (filterMap_id_length _ all).1
    have counted := valid.counted
    have inside : map.vecOffset ≤ map.vec.length := valid.inside
    rw [entries, length, List.length_take, Nat.min_eq_left inside] at counted
    rw [isSparse, counted] at sparse
    simp at sparse
  classical
  obtain ⟨bound, none⟩ := Nat.find_spec hole
  refine ⟨Nat.find hole, bound, none, ?_⟩
  intro earlier order
  rw [Option.isSome_iff_ne_none]
  intro gap
  exact Nat.find_min hole order ⟨Nat.lt_trans order bound, gap⟩

/-- What a search returns, from the entries alone. -/
theorem Valid.find_eq (valid : Valid hash map) (key : Str) :
    map.find hash key = .ok (StrMap.find hash map.pairs key) := by
  by_cases absent : Absent hash map key
  · obtain ⟨ret, found, noEntry, -⟩ := valid.findEntry_absent absent
    have nothing : StrMap.find hash map.pairs key = none := by
      rw [StrMap.find, Option.map_eq_none_iff, List.find?_eq_none]
      intro pair member
      obtain ⟨entry, inside, rfl⟩ := List.mem_map.mp member
      rw [absent_iff.mp absent entry inside]
      exact Bool.false_ne_true
    rw [nothing, find, found]
    change Except.ok _ = _
    rw [noEntry]
    rfl
  · obtain ⟨index, entry, held, same⟩ := not_absent absent
    obtain ⟨ret, found, place⟩ := valid.findEntry_present held same
    have present : StrMap.find hash map.pairs key = some entry.value := by
      rw [StrMap.find, pairs, List.find?_map, Option.map_map]
      have first : map.entries.find? ((fun pair : Str × α => stringEq hash pair.1 key) ∘
          fun entry : MapEntry α => (entry.key, entry.value)) = some entry := by
        cases first : map.entries.find? ((fun pair : Str × α => stringEq hash pair.1 key) ∘
            fun entry : MapEntry α => (entry.key, entry.value)) with
        | none =>
          rw [List.find?_eq_none] at first
          exact absurd same (first entry (mem_entries.mpr ⟨index, held⟩))
        | some other =>
          obtain ⟨otherIndex, otherHeld⟩ := mem_entries.mp (List.mem_of_find?_eq_some first)
          have otherSame := List.find?_some first
          rw [Function.comp_apply] at otherSame
          have sameIndex := valid.distinct _ _ _ _ held otherHeld
            (stringEq_trans same (stringEq_symm otherSame))
          subst sameIndex
          rw [holds_unique held otherHeld]
      rw [first]
      rfl
    rw [present, find, found]
    change Except.ok _ = _
    rw [place, Option.bind_some, held.2]
    rfl

/-- What compaction is for: the same entries in the same order, at the front of the
vector, each pointed at by its slot and found as before. -/
structure Packed (hash : StringHash) (before after : Map α) : Prop where
  vecOffset : after.vecOffset = before.count
  packed : ∀ index < before.count, after.entryAt index = before.entries[index]?
  pointed : ∀ index (entry : MapEntry α), before.entries[index]? = some entry →
    after.table[entry.tableOffset]? = some (.entry index)
  found : ∀ key, after.find hash key = before.find hash key
  enumerated : after.entries = before.entries

theorem entries_getElem? (dense : ∀ slot ∈ map.vec.take map.vecOffset, slot.isSome = true)
    (bound : index < map.vecOffset) : map.entryAt index = map.entries[index]? := by
  have same := (filterMap_id_length _ dense).2
  have slot := congrArg (·[index]?) same
  simp only [List.getElem?_map, List.getElem?_take, if_pos bound] at slot
  rw [entryAt, ← slot, entries]
  cases (List.filterMap id (List.take map.vecOffset map.vec))[index]? <;> rfl

theorem Valid.dense (valid : Valid hash map) (full : map.i = map.vecOffset) :
    ∀ slot ∈ map.vec.take map.vecOffset, slot.isSome = true := by
  intro slot member
  by_contra gap
  obtain ⟨place, inside, found⟩ := List.mem_iff_getElem.mp member
  have counted := valid.counted
  have shorter : map.entries.length < (map.vec.take map.vecOffset).length := by
    rw [entries]
    refine List.length_filterMap_lt_length_iff_exists.mpr ⟨slot, member, ?_⟩
    simpa using gap
  rw [List.length_take] at shorter
  have : map.vecOffset ≤ map.vec.length := valid.inside
  omega

/-- A dense map is packed already. -/
theorem Valid.packed_self (valid : Valid hash map) (full : map.i = map.vecOffset) :
    Packed hash map map := by
  refine ⟨full.symm, ?_, ?_, fun _ => rfl, rfl⟩
  · intro index bound
    exact entries_getElem? (valid.dense full) (by rw [← full]; exact bound)
  · intro index entry present
    have bound := (List.getElem?_eq_some_iff.mp present).1
    have inUse : index < map.vecOffset := by
      rw [← full, valid.counted]
      exact bound
    exact valid.pointed index entry ⟨inUse, by
      rw [entries_getElem? (valid.dense full) inUse]
      exact present⟩

/-- What holds of entries at different places holds along the row of entries. -/
theorem entries_pairwise {related : MapEntry α → MapEntry α → Prop}
    (inside : map.vecOffset ≤ map.vecCapacity)
    (holds : ∀ index later entry other, index < later → map.Holds index entry →
      map.Holds later other → related entry other) : map.entries.Pairwise related := by
  have room : map.vecOffset ≤ map.vec.length := inside
  rw [entries, List.pairwise_filterMap, List.pairwise_iff_getElem]
  intro index later boundIndex boundLater order entry left other right
  rw [List.length_take] at boundIndex boundLater
  refine holds index later entry other order ⟨by omega, ?_⟩ ⟨by omega, ?_⟩
  · rw [entryAt, List.getElem?_eq_getElem (by omega)]
    rw [List.getElem_take] at left
    exact left
  · rw [entryAt, List.getElem?_eq_getElem (by omega)]
    rw [List.getElem_take] at right
    exact right

/-- Slots of different entries are different. -/
theorem Valid.offsets_nodup (valid : Valid hash map) :
    (map.entries.map MapEntry.tableOffset).Nodup := by
  rw [List.Nodup, List.pairwise_map]
  refine entries_pairwise valid.inside ?_
  intro index later entry other order held otherHeld same
  have pointed := valid.pointed index entry held
  rw [same, valid.pointed later other otherHeld] at pointed
  cases pointed
  omega

/-- Keys of different entries are different. -/
theorem Valid.keys_distinct (valid : Valid hash map) :
    map.entries.Pairwise fun left right => stringEq hash left.key right.key = false := by
  refine entries_pairwise valid.inside ?_
  intro index later entry other order held otherHeld
  by_contra same
  have := valid.distinct _ _ _ _ held otherHeld (by simpa using same)
  omega

theorem reached_pointFrom (row : List (MapEntry α)) (first : Nat)
    (reached : Probe.Reached (· = MapSlot.null) table start offset) :
    Probe.Reached (· = MapSlot.null) (pointFrom table first row) start offset := by
  induction row generalizing table first with
  | nil => exact reached
  | cons entry rest ih =>
    have isEntry : ¬MapSlot.entry first = .null := nofun
    exact ih (first + 1) (reached.set isEntry _)

/-- The entries of a map in a row of their own, behind `first` holes, pointed at from
their slots. -/
structure Rearranged (before after : Map α) (first : Nat) (row : List (MapEntry α)) : Prop where
  perm : row.Perm before.entries
  vec : after.vec.take (first + row.length) = List.replicate first none ++ row.map some
  vecOffset : after.vecOffset = first + row.length
  i : after.i = before.i
  table : after.table = pointFrom before.table first row

namespace Rearranged

variable {before after : Map α} {first : Nat} {row : List (MapEntry α)}

theorem entries (rearranged : Rearranged before after first row) : after.entries = row := by
  rw [Map.entries, rearranged.vecOffset, rearranged.vec, List.filterMap_append,
    List.filterMap_replicate_of_none rfl, List.nil_append, List.filterMap_map]
  exact List.filterMap_some

theorem entryAt (rearranged : Rearranged before after first row) (bound : index < row.length) :
    after.entryAt (first + index) = row[index]? := by
  have slot := congrArg (·[first + index]?) rearranged.vec
  simp only [List.getElem?_take, if_pos (Nat.add_lt_add_left bound first)] at slot
  rw [List.getElem?_append_right (by rw [List.length_replicate]; exact Nat.le_add_right _ _),
    List.length_replicate, Nat.add_sub_cancel_left, List.getElem?_map] at slot
  rw [Map.entryAt, slot]
  cases row[index]? <;> rfl

theorem holds_iff (rearranged : Rearranged before after first row) :
    after.Holds place entry ↔ ∃ index, place = first + index ∧ row[index]? = some entry := by
  constructor
  · rintro ⟨bound, present⟩
    rw [rearranged.vecOffset] at bound
    by_cases hole : place < first
    · have slot := congrArg (·[place]?) rearranged.vec
      simp only [List.getElem?_take, if_pos bound] at slot
      rw [List.getElem?_append_left (by rw [List.length_replicate]; exact hole),
        List.getElem?_replicate, if_pos hole] at slot
      rw [Map.entryAt, slot] at present
      cases present
    · refine ⟨place - first, by omega, ?_⟩
      rw [← rearranged.entryAt (by omega), Nat.add_sub_cancel' (by omega)]
      exact present
  · rintro ⟨index, rfl, present⟩
    have bound := (List.getElem?_eq_some_iff.mp present).1
    refine ⟨?_, by rw [rearranged.entryAt bound]; exact present⟩
    rw [rearranged.vecOffset]
    exact Nat.add_lt_add_left bound first

theorem tableCapacity (rearranged : Rearranged before after first row) :
    after.tableCapacity = before.tableCapacity := by
  rw [Map.tableCapacity, rearranged.table, pointFrom_length]
  rfl

theorem pointed {entry : MapEntry α} (rearranged : Rearranged before after first row)
    (valid : Valid hash before) (present : row[index]? = some entry) :
    after.table[entry.tableOffset]? = some (.entry (first + index)) := by
  rw [rearranged.table]
  refine pointFrom_own row first ?_ ?_ present
  · intro other member
    obtain ⟨place, held⟩ := mem_entries.mp (rearranged.perm.mem_iff.mp member)
    exact (List.getElem?_eq_some_iff.mp (valid.pointed place other held)).1
  · exact (rearranged.perm.map _).nodup_iff.mpr valid.offsets_nodup

theorem inside (rearranged : Rearranged before after first row) :
    first + row.length ≤ after.vecCapacity := by
  have length := congrArg List.length rearranged.vec
  rw [List.length_take, List.length_append, List.length_replicate, List.length_map] at length
  rw [vecCapacity]
  omega

/-- Rearranging keeps the invariant. -/
theorem valid (rearranged : Rearranged before after first row) (valid : Valid hash before) :
    Valid hash after := by
  have startSame : ∀ key, after.startOf hash key = before.startOf hash key := by
    intro key
    rw [startOf, startOf, rearranged.tableCapacity]
  refine ⟨?_, ?_, ?_, ?_, ?_, ?_⟩
  · rw [rearranged.vecOffset]
    exact rearranged.inside
  · rw [rearranged.i, rearranged.entries, rearranged.perm.length_eq]
    exact valid.counted
  · intro place entry held
    obtain ⟨index, rfl, present⟩ := rearranged.holds_iff.mp held
    exact rearranged.pointed valid present
  · intro offset place present
    by_cases own : ∃ entry ∈ row, entry.tableOffset = offset
    · obtain ⟨entry, member, rfl⟩ := own
      obtain ⟨index, found⟩ := List.mem_iff_getElem?.mp member
      rw [rearranged.pointed valid found] at present
      cases present
      exact ⟨entry, rearranged.holds_iff.mpr ⟨index, rfl, found⟩, rfl⟩
    · push Not at own
      rw [rearranged.table, pointFrom_other row first own] at present
      obtain ⟨entry, held, same⟩ := valid.live offset place present
      exact absurd same (own entry (rearranged.perm.mem_iff.mpr (mem_entries.mpr ⟨place, held⟩)))
  · intro place entry held
    rw [startSame, rearranged.table]
    obtain ⟨index, -, present⟩ := rearranged.holds_iff.mp held
    obtain ⟨old, oldHeld⟩ :=
      mem_entries.mp (rearranged.perm.mem_iff.mp (List.mem_of_getElem? present))
    exact reached_pointFrom row first (valid.reached old entry oldHeld)
  · intro place entry otherPlace otherEntry held otherHeld same
    have pairwise : row.Pairwise fun left right => stringEq hash left.key right.key = false := by
      refine (rearranged.perm.pairwise_iff ?_).mpr valid.keys_distinct
      intro left right different
      by_contra equal
      rw [stringEq_symm (by simpa using equal)] at different
      cases different
    rw [List.pairwise_iff_getElem] at pairwise
    obtain ⟨index, rfl, present⟩ := rearranged.holds_iff.mp held
    obtain ⟨other, rfl, otherPresent⟩ := rearranged.holds_iff.mp otherHeld
    obtain ⟨boundLeft, left⟩ := List.getElem?_eq_some_iff.mp present
    obtain ⟨boundRight, right⟩ := List.getElem?_eq_some_iff.mp otherPresent
    rcases Nat.lt_trichotomy index other with earlier | equal | later
    · have different := pairwise index other boundLeft boundRight earlier
      rw [left, right, same] at different
      cases different
    · rw [equal]
    · have different := pairwise other index boundRight boundLeft later
      rw [left, right, stringEq_symm same] at different
      cases different

end Rearranged

/-- With the first hole in the second place, compaction rearranges the entries. -/
theorem rearranged_compact (valid : Valid hash map) (sparse : map.isSparse = true)
    (hole : map.FirstHole 1) : Rearranged map map.sparseArrayCompact 0 map.entries := by
  obtain ⟨vec, result, -, packed⟩ := sparseArrayCompact_spec valid sparse hole
  obtain ⟨split, length, first⟩ := hole.split valid
  obtain ⟨entry, single⟩ := List.length_eq_one_iff.mp length
  rw [single] at split first
  have held : map.Holds 0 entry := by
    refine ⟨Nat.lt_trans Nat.zero_lt_one hole.1, ?_⟩
    have slot := congrArg (·[0]?) first
    simp only [List.getElem?_take, if_pos Nat.zero_lt_one] at slot
    rw [entryAt, ← slot]
    rfl
  have own := valid.pointed 0 entry held
  rw [result]
  refine ⟨.refl _, ?_, ?_, rfl, ?_⟩
  · rw [split, List.singleton_append, List.length_cons, Nat.zero_add, Nat.add_comm]
    dsimp only
    rw [packed, ← first]
    rfl
  · rw [split, List.singleton_append, List.length_cons, Nat.zero_add, Nat.add_comm]
  · rw [split, List.singleton_append, pointFrom]
    have inTable := (List.getElem?_eq_some_iff.mp own).1
    have unchanged : map.table.set entry.tableOffset (.entry 0) = map.table := by
      have value := (List.getElem?_eq_some_iff.mp own).2
      rw [← value]
      exact List.set_getElem_self inTable
    rw [unchanged]

/-- With the first hole in the first place, it puts them one place too far back. -/
theorem rearranged_compact_zero (valid : Valid hash map) (sparse : map.isSparse = true)
    (hole : map.FirstHole 0) : Rearranged map map.sparseArrayCompact 1 map.entries := by
  obtain ⟨vec, result, -, packed⟩ := sparseArrayCompact_spec valid sparse hole
  obtain ⟨split, -, -⟩ := hole.split valid
  rw [List.take_zero, List.filterMap_nil, List.nil_append] at split
  have inVec : 0 < map.vec.length := Nat.lt_of_lt_of_le hole.1 valid.inside
  have gap : map.vec[0] = none := by
    have none := hole.2.1
    rw [entryAt, List.getElem?_eq_getElem inVec] at none
    exact none
  have front : map.vec.take 1 = List.replicate 1 none := by
    rw [List.take_one, List.head?_eq_getElem?, List.getElem?_eq_getElem inVec, gap]
    rfl
  rw [result, split]
  refine ⟨?_, ?_, rfl, rfl, rfl⟩
  · rw [split]
  · rw [← front]
    exact packed

theorem Rearranged.packed (rearranged : Rearranged map after 0 map.entries)
    (valid : Valid hash map) : Packed hash map after := by
  refine ⟨?_, ?_, ?_, ?_, rearranged.entries⟩
  · rw [rearranged.vecOffset, Nat.zero_add]
    exact valid.counted.symm
  · intro index bound
    have same := rearranged.entryAt (by rw [← valid.counted]; exact bound)
    rw [Nat.zero_add] at same
    exact same
  · intro index entry present
    have pointed := rearranged.pointed valid present
    rw [Nat.zero_add] at pointed
    exact pointed
  · intro key
    rw [(rearranged.valid valid).find_eq, valid.find_eq, pairs, pairs, rearranged.entries]

/-- Compaction packs maps without a hole and those whose first hole is the second place. -/
theorem packed_of_harmless (valid : Valid hash map)
    (harmless : map.isSparse = false ∨ map.FirstHole 1) : Packed hash map map.sparseArrayCompact := by
  rcases harmless with dense | hole
  · have full : map.i = map.vecOffset := isSparse_eq_false.mp dense
    rw [sparseArrayCompact, if_pos full]
    exact valid.packed_self full
  · by_cases sparse : map.isSparse = true
    · exact (rearranged_compact valid sparse hole).packed valid
    · have full := isSparse_eq_false.mp (Bool.eq_false_iff.mpr sparse)
      rw [sparseArrayCompact, if_pos full]
      exact valid.packed_self full

/-- Compaction does what it is for exactly on maps without a hole and on those whose
first hole is the second place of the vector. -/
theorem sparseArrayCompact_packed_iff (valid : Valid hash map) :
    Packed hash map map.sparseArrayCompact ↔ map.isSparse = false ∨ map.FirstHole 1 := by
  constructor
  · intro packed
    by_cases sparse : map.isSparse = true
    · right
      obtain ⟨index, hole⟩ := exists_firstHole valid sparse
      obtain ⟨vec, result, -, -⟩ := sparseArrayCompact_spec valid sparse hole
      obtain ⟨split, length, -⟩ := hole.split valid
      have offset := packed.vecOffset
      rw [result, count, valid.counted, split, List.length_append, length] at offset
      have second : index = 1 := by
        dsimp only at offset
        omega
      rw [← second]
      exact hole
    · exact .inl (Bool.eq_false_iff.mpr sparse)
  · exact packed_of_harmless valid

theorem sparseArrayCompact_packed_second :
    let map : Map Nat := ⟨1, 2, false, 0, [some ⟨bytes "a", 1, 0⟩, none],
      [.entry 0, .tombstone, .null, .null, .null]⟩
    map.isSparse = true ∧ Packed (fun _ => 0) map map.sparseArrayCompact := by
  intro map
  have held : map.Holds 0 ⟨bytes "a", 1, 0⟩ := ⟨by decide, rfl⟩
  have only : ∀ index entry, map.Holds index entry → index = 0 ∧ entry = ⟨bytes "a", 1, 0⟩ := by
    rintro (_ | _ | index) entry ⟨bound, present⟩
    · cases present
      exact ⟨rfl, rfl⟩
    · cases present
    · exact absurd bound (by change ¬index + 2 < 2; omega)
  have valid : Valid (fun _ => 0) map := by
    refine ⟨by decide, rfl, ?_, ?_, ?_, ?_⟩
    · rintro index entry there
      obtain ⟨rfl, rfl⟩ := only index entry there
      rfl
    · rintro (_ | _ | _ | _ | _ | offset) index present
      · cases present
        exact ⟨_, held, rfl⟩
      all_goals cases present
    · rintro index entry there
      obtain ⟨rfl, rfl⟩ := only index entry there
      exact ⟨0, by decide, rfl, nofun⟩
    · rintro index entry other otherEntry there otherThere -
      rw [(only index entry there).1, (only other otherEntry otherThere).1]
  refine ⟨rfl, (sparseArrayCompact_packed_iff valid).mpr (.inr ⟨by decide, rfl, ?_⟩)⟩
  intro earlier order
  rw [Nat.lt_one_iff.mp order]
  rfl

/-- With the hole in the first place, the entry behind it stays where it is. -/
theorem sparseArrayCompact_first_hole : ∃ map : Map Nat,
    (do
      let map ← ctor 4
      let map ← add (fun _ => 0) map (bytes "a") 1
      let map ← add (fun _ => 0) map (bytes "bb") 2
      remove (fun _ => 0) map (bytes "a")) = .ok map ∧
    ¬Packed (fun _ => 0) map map.sparseArrayCompact := by
  refine ⟨⟨1, 2, false, 0, [none, some ⟨bytes "bb", 2, 1⟩, none, none],
    [.tombstone, .entry 1, .null, .null, .null, .null, .null, .null, .null, .null, .null]⟩, rfl,
    fun packed => ?_⟩
  exact absurd packed.vecOffset (by decide)

end Map

end HandlebarsC
