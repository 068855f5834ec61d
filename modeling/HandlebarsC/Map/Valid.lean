import HandlebarsC.Foundation.Probe
import HandlebarsC.Map.Model

/-!
The representation invariant of a map, and what a search finds in a map that has it.
-/

namespace HandlebarsC

namespace Map

variable {α : Type} {hash : StringHash} {map : Map α} {key : Str} {i : Nat}

/-- Where a search for the key starts. -/
def startOf (hash : StringHash) (map : Map α) (key : Str) : Nat :=
  (hash key).toNat % map.tableCapacity

/-- The entry at a place of the vector that is in use. -/
def Holds (map : Map α) (index : Nat) (entry : MapEntry α) : Prop :=
  index < map.vecOffset ∧ map.entryAt index = some entry

/-- Entries and slots point at each other, a search for an entry's key reaches its
slot, and no two keys are equal. -/
structure Valid (hash : StringHash) (map : Map α) : Prop where
  inside : map.vecOffset ≤ map.vecCapacity
  counted : map.i = map.entries.length
  pointed : ∀ index entry, map.Holds index entry →
    map.table[entry.tableOffset]? = some (.entry index)
  live : ∀ offset index, map.table[offset]? = some (.entry index) →
    ∃ entry, map.Holds index entry ∧ entry.tableOffset = offset
  reached : ∀ index entry, map.Holds index entry →
    Probe.Reached (· = MapSlot.null) map.table (map.startOf hash entry.key) entry.tableOffset
  distinct : ∀ index entry other otherEntry, map.Holds index entry → map.Holds other otherEntry →
    stringEq hash entry.key otherEntry.key = true → index = other

/-- No entry has the key. -/
def Absent (hash : StringHash) (map : Map α) (key : Str) : Prop :=
  ∀ index entry, map.Holds index entry → stringEq hash entry.key key = false

theorem holds_unique (left : map.Holds index entry) (right : map.Holds index other) :
    entry = other :=
  Option.some.inj (left.2.symm.trans right.2)

theorem mem_entries {entry : MapEntry α} :
    entry ∈ map.entries ↔ ∃ index, map.Holds index entry := by
  rw [entries, List.mem_filterMap]
  constructor
  · rintro ⟨slot, member, present⟩
    obtain ⟨index, found⟩ := List.mem_iff_getElem?.mp member
    rw [List.getElem?_take] at found
    split at found
    · rename_i bound
      refine ⟨index, bound, ?_⟩
      rw [entryAt, found]
      exact present
    · cases found
  · rintro ⟨index, bound, present⟩
    refine ⟨some entry, ?_, rfl⟩
    apply List.mem_iff_getElem?.mpr
    refine ⟨index, ?_⟩
    rw [List.getElem?_take, if_pos bound]
    exact Option.join_eq_some_iff.mp present

theorem absent_iff : Absent hash map key ↔
    ∀ entry ∈ map.entries, stringEq hash entry.key key = false := by
  constructor
  · intro absent entry member
    obtain ⟨index, held⟩ := mem_entries.mp member
    exact absent index entry held
  · intro absent index entry held
    exact absent entry (mem_entries.mpr ⟨index, held⟩)

theorem not_absent (present : ¬Absent hash map key) :
    ∃ index entry, map.Holds index entry ∧ stringEq hash entry.key key = true := by
  unfold Absent at present
  push Not at present
  obtain ⟨index, entry, held, same⟩ := present
  exact ⟨index, entry, held, by simpa using same⟩

theorem startOf_congr (same : stringEq hash left right = true) :
    map.startOf hash left = map.startOf hash right := by
  rw [startOf, startOf, ((stringEq_iff hash left right).mp same).2]

/-- A place that a search for the key leaves behind. -/
def Passes (hash : StringHash) (map : Map α) (key : Str) (position : Nat) : Prop :=
  map.table[position]? = some .tombstone ∨
    ∃ index entry, map.table[position]? = some (.entry index) ∧
      map.entryAt index = some entry ∧ stringEq hash entry.key key = false

theorem findLoop_null
    (slot : map.table[Probe.place map.tableCapacity start i]? = some .null) :
    findLoop hash map key start (left + 1) i ret = .ok { ret with
      emptyFound := true
      emptyOffset := Probe.place map.tableCapacity start i } := by
  rw [Probe.place] at slot
  simp only [findLoop, slot]
  rfl

theorem findLoop_match
    (slot : map.table[Probe.place map.tableCapacity start i]? = some (.entry index))
    (held : map.entryAt index = some entry) (same : stringEq hash entry.key key = true) :
    findLoop hash map key start (left + 1) i ret = .ok { ret with
      entry := some (Probe.place map.tableCapacity start i, index) } := by
  rw [Probe.place] at slot
  simp only [findLoop, slot, held, same, if_true]
  rfl

theorem findLoop_passes (steps left i : Nat) (ret : FindResult)
    (passes : ∀ earlier < steps,
      Passes hash map key (Probe.place map.tableCapacity start (i + earlier))) :
    ∃ later, later.entry = ret.entry ∧ later.emptyFound = ret.emptyFound ∧
      findLoop hash map key start (steps + left) i ret =
        findLoop hash map key start left (i + steps) later := by
  induction steps generalizing i ret with
  | zero => exact ⟨ret, rfl, rfl, by rw [Nat.zero_add, Nat.add_zero]⟩
  | succ steps ih =>
    have rest : ∀ earlier < steps,
        Passes hash map key (Probe.place map.tableCapacity start (i + 1 + earlier)) := by
      intro earlier order
      have later := passes (earlier + 1) (by omega)
      rwa [show i + (earlier + 1) = i + 1 + earlier by omega] at later
    rw [show steps + 1 + left = steps + left + 1 by omega,
      show i + (steps + 1) = i + 1 + steps by omega, findLoop]
    rcases passes 0 (Nat.succ_pos steps) with dead | ⟨index, entry, slot, held, different⟩
    · rw [Nat.add_zero, Probe.place] at dead
      simp only [dead]
      obtain ⟨later, entry, emptyFound, reached⟩ := ih (i + 1)
        (if ret.emptyFound then ret
          else { ret with emptyOffset := (start + i) % map.tableCapacity }) rest
      refine ⟨later, ?_, ?_, reached⟩
      · rw [entry]
        split <;> rfl
      · rw [emptyFound]
        split <;> rfl
    · rw [Nat.add_zero, Probe.place] at slot
      simp only [slot, held, different, Bool.false_eq_true, if_false]
      exact ih (i + 1) ret rest

/-- Every slot that is taken is passed, but for that of the key. -/
theorem Valid.passes (valid : Valid hash map) (taken : map.table[position]? = some slot)
    (notNull : slot ≠ .null)
    (other : ∀ index entry, map.Holds index entry → stringEq hash entry.key key = true →
      entry.tableOffset ≠ position) : Passes hash map key position := by
  cases slot with
  | null => exact absurd rfl notNull
  | tombstone => exact .inl taken
  | entry index =>
    obtain ⟨entry, held, offset⟩ := valid.live _ _ taken
    refine .inr ⟨index, entry, taken, held.2, ?_⟩
    by_contra same
    exact other index entry held (by simpa using same) offset

theorem Valid.slot (_ : Valid hash map) (bound : steps < map.tableCapacity) (start : Nat) :
    ∃ slot, map.table[Probe.place map.tableCapacity start steps]? = some slot :=
  ⟨_, List.getElem?_eq_getElem (Probe.place_lt (Nat.zero_lt_of_lt bound) start steps)⟩

/-- A search for a key that is there finds its slot and its place. -/
theorem Valid.findEntry_present (valid : Valid hash map) (held : map.Holds index entry)
    (same : stringEq hash entry.key key = true) :
    ∃ ret, findEntry hash map key = .ok ret ∧ ret.entry = some (entry.tableOffset, index) := by
  obtain ⟨steps, bound, arrived, before⟩ := valid.reached index entry held
  rw [startOf_congr same] at arrived before
  have passes : ∀ earlier < steps, Passes hash map key
      (Probe.place map.tableCapacity (map.startOf hash key) (0 + earlier)) := by
    intro earlier order
    rw [Nat.zero_add]
    obtain ⟨slot, taken⟩ := valid.slot (Nat.lt_trans order bound) (map.startOf hash key)
    refine valid.passes taken (before earlier order slot taken) ?_
    intro otherIndex otherEntry otherHeld otherSame offset
    have sameIndex := valid.distinct _ _ _ _ held otherHeld
      (stringEq_trans same (stringEq_symm otherSame))
    subst sameIndex
    rw [← holds_unique held otherHeld, ← arrived] at offset
    exact absurd (Probe.steps_unique bound (Nat.lt_trans order bound) offset) (by omega)
  obtain ⟨later, -, -, reached⟩ :=
    findLoop_passes steps (map.tableCapacity - steps) 0 ⟨false, 0, none⟩ passes
  have inside : steps < map.tableCapacity := bound
  rw [show steps + (map.tableCapacity - steps) = map.tableCapacity by omega] at reached
  have pointed := valid.pointed index entry held
  rw [← arrived] at pointed
  refine ⟨{ later with entry := some (entry.tableOffset, index) }, ?_, rfl⟩
  rw [findEntry]
  refine reached.trans ?_
  rw [show map.tableCapacity - steps = map.tableCapacity - steps - 1 + 1 by omega, Nat.zero_add,
    ← arrived]
  exact findLoop_match pointed held.2 same

/-- A search for a key that is not there finds no entry, and the first free slot when
there is one. -/
theorem Valid.findEntry_absent (valid : Valid hash map) (absent : Absent hash map key) :
    ∃ ret, findEntry hash map key = .ok ret ∧ ret.entry = none ∧
      (MapSlot.null ∈ map.table → ret.emptyFound = true ∧
        map.table[ret.emptyOffset]? = some .null ∧
        Probe.Reached (· = MapSlot.null) map.table (map.startOf hash key) ret.emptyOffset) := by
  by_cases room : MapSlot.null ∈ map.table
  · obtain ⟨position, present⟩ := List.mem_iff_getElem?.mp room
    obtain ⟨steps, bound, ⟨found, there, isNull⟩, before⟩ :=
      Probe.exists_first_free (· = MapSlot.null) present rfl (map.startOf hash key)
    have passes : ∀ earlier < steps, Passes hash map key
        (Probe.place map.tableCapacity (map.startOf hash key) (0 + earlier)) := by
      intro earlier order
      rw [Nat.zero_add]
      obtain ⟨slot, taken⟩ := valid.slot (Nat.lt_trans order bound) (map.startOf hash key)
      refine valid.passes taken (before earlier order slot taken) ?_
      intro index entry held same
      rw [absent index entry held] at same
      cases same
    obtain ⟨later, noEntry, -, reached⟩ :=
      findLoop_passes steps (map.tableCapacity - steps) 0 ⟨false, 0, none⟩ passes
    have inside : steps < map.tableCapacity := bound
    rw [show steps + (map.tableCapacity - steps) = map.tableCapacity by omega] at reached
    subst isNull
    refine ⟨⟨true, Probe.place map.tableCapacity (map.startOf hash key) steps, none⟩, ?_, rfl,
      fun _ => ?_⟩
    · rw [findEntry]
      refine reached.trans ?_
      rw [show map.tableCapacity - steps = map.tableCapacity - steps - 1 + 1 by omega, Nat.zero_add]
      refine (findLoop_null there).trans ?_
      rw [noEntry]
    · exact ⟨rfl, there, steps, bound, rfl, before⟩
  · have passes : ∀ earlier < map.tableCapacity, Passes hash map key
        (Probe.place map.tableCapacity (map.startOf hash key) (0 + earlier)) := by
      intro earlier order
      rw [Nat.zero_add]
      obtain ⟨slot, taken⟩ := valid.slot order (map.startOf hash key)
      refine valid.passes taken ?_ ?_
      · rintro rfl
        exact room (List.mem_of_getElem? taken)
      · intro index entry held same
        rw [absent index entry held] at same
        cases same
    obtain ⟨later, noEntry, -, reached⟩ :=
      findLoop_passes map.tableCapacity 0 0 ⟨false, 0, none⟩ passes
    exact ⟨later, reached, noEntry, fun present => absurd present room⟩

end Map

end HandlebarsC
