import HandlebarsC.Core.Types
import Mathlib.Data.List.Induction

/-!
`handlebars_cache_mmap_ctor`: how the mapping is divided into a header, the table and the data,
in `size_t` arithmetic that wraps around.
-/

namespace HandlebarsC.Mmap

/-- `handlebars_align_size` -/
def alignSizeTo (size alignment : UInt64) : UInt64 :=
  let rem := size % alignment
  if rem = 0 then size else size + alignment - rem

/-- `sizeof(struct handlebars_cache_mmap)` -/
def sizeofCacheMmap : UInt64 := 144

/-- What the constructor takes from the operating system. A failure comes with the text its
message ends in; a mapping lies in the lower half of the address space. -/
structure System where
  pageSize : UInt64
  positive : 0 < pageSize.toNat
  mmap : UInt64 → Except Str UInt64
  mapped : ∀ length address, mmap length = .ok address → address.toNat + length.toNat ≤ 2 ^ 63
  lockInit : Except Str Unit
  mprotect : UInt64 → UInt64 → Bool → Except Str Unit

/-- The fields of `struct handlebars_cache_mmap` that the constructor computes. -/
structure Layout where
  intern : UInt64
  size : UInt64
  internSize : UInt64
  tableSize : UInt64
  dataSize : UInt64
  tableCount : UInt32
  table : UInt64
  data : UInt64

def failed (prefixed : String) (reason : Str) : Error :=
  ⟨.error, bytes prefixed ++ reason, .zero⟩

/-- `protect` -/
def protectSegments (system : System) (layout : Layout) (on : Bool) : Except Error Unit :=
  (system.mprotect layout.table (layout.tableSize + layout.dataSize) on).mapError
    (failed "mprotect error: ")

/-- `handlebars_cache_mmap_ctor`, with the `cache_reset` at its end. -/
def cacheMmapCtor (system : System) (size entries : UInt64) : Except Error Layout := do
  let internSize := alignSizeTo sizeofCacheMmap system.pageSize
  let shmSize := alignSizeTo size system.pageSize
  let tableSize := alignSizeTo (entries * 8) system.pageSize
  let dataSize := shmSize - tableSize - internSize
  if tableSize ≥ shmSize then
    .error (failed "Table size must not be greater than segment size" [])
  let intern ← (system.mmap shmSize).mapError (failed "Failed to mmap: ")
  let layout : Layout :=
    { intern := intern, size := shmSize, internSize := internSize, tableSize := tableSize
      dataSize := dataSize, tableCount := entries.toUInt32
      table := intern + internSize, data := intern + internSize + tableSize }
  system.lockInit.mapError (failed "Failed to init lock: ")
  protectSegments system layout false
  protectSegments system layout true
  protectSegments system layout true
  return layout

/-- `hbs_str_hash(string) % intern->table_count`, undefined for an empty table. -/
def Layout.slot (layout : Layout) (hash : UInt32) : Option UInt32 :=
  if layout.tableCount = 0 then none else some (hash % layout.tableCount)

/-- `append`: where in the data segment it writes, and `data_length` behind it. -/
def Layout.append (layout : Layout) (dataLength size : UInt64) : Option (UInt64 × UInt64) :=
  let alignedSize := alignSizeTo (size + 1) 8
  if dataLength + alignedSize ≥ layout.dataSize then none
  else some (dataLength, dataLength + alignedSize)

/-- What changes `data_length`: an append of so many bytes, or a reset. -/
inductive Change where
  | append (size : UInt64)
  | reset

def Layout.change (layout : Layout) (dataLength : UInt64) : Change → UInt64
  | .append size => ((layout.append dataLength size).map (·.2)).getD dataLength
  | .reset => 0

/-- `data_length` behind a sequence of appends and resets. -/
def Layout.lengthAfter (layout : Layout) (changes : List Change) : UInt64 :=
  changes.foldl layout.change 0

/-- What is appended lies in the same address space as the mapping. -/
def Layout.Beside (layout : Layout) (size : UInt64) : Prop :=
  size.toNat + layout.size.toNat ≤ 2 ^ 63

/-- What is promised of a layout: the segments follow each other inside the mapping, the table
has room for its slots, of which there is one, every key has a slot in the table, and what
an append writes lies in the data segment. -/
structure Layout.Consistent (layout : Layout) : Prop where
  header : sizeofCacheMmap.toNat ≤ layout.internSize.toNat
  table : layout.table.toNat = layout.intern.toNat + layout.internSize.toNat
  data : layout.data.toNat = layout.table.toNat + layout.tableSize.toNat
  inside : layout.data.toNat + layout.dataSize.toNat ≤ layout.intern.toNat + layout.size.toNat
  slots : layout.tableCount ≠ 0 ∧ 8 * layout.tableCount.toNat ≤ layout.tableSize.toNat
  slot : ∀ hash, ∃ index, layout.slot hash = some index ∧
    8 * index.toNat + 8 ≤ layout.tableSize.toNat
  append : ∀ changes : List Change, (∀ size, .append size ∈ changes → layout.Beside size) →
    ∀ size, layout.Beside size → ∀ offset after,
      layout.append (layout.lengthAfter changes) size = some (offset, after) →
        offset.toNat + size.toNat ≤ after.toNat ∧ after.toNat ≤ layout.dataSize.toNat

/-- A number of bytes rounded up to whole pages. -/
def roundUp (count page : Nat) : Nat :=
  if count % page = 0 then count else count + page - count % page

/-- The arguments fit: the number of slots is not lost in 32 bits, the table keeps room for
them, and header and table fit in the mapping. -/
def Fits (page size entries : Nat) : Prop :=
  entries % 2 ^ 32 ≠ 0 ∧
    8 * (entries % 2 ^ 32) ≤ roundUp (entries * 8 % 2 ^ 64) page % 2 ^ 64 ∧
    roundUp 144 page % 2 ^ 64 + roundUp (entries * 8 % 2 ^ 64) page % 2 ^ 64 ≤
      roundUp size page % 2 ^ 64

variable {system : System} {layout : Layout}

theorem alignSizeTo_toNat (size alignment : UInt64) (positive : 0 < alignment.toNat) :
    (alignSizeTo size alignment).toNat = roundUp size.toNat alignment.toNat % 2 ^ 64 := by
  have small := size.toNat_lt
  have page := alignment.toNat_lt
  have rest := Nat.mod_lt size.toNat positive
  unfold alignSizeTo roundUp
  by_cases whole : size.toNat % alignment.toNat = 0
  · have zero : size % alignment = 0 := by
      apply UInt64.toNat_inj.mp
      rw [UInt64.toNat_mod, whole]
      rfl
    rw [if_pos zero, if_pos whole]
    omega
  · have nonzero : size % alignment ≠ 0 := by
      intro zero
      apply whole
      rw [← UInt64.toNat_mod, zero]
      rfl
    rw [if_neg nonzero, if_neg whole, UInt64.toNat_sub, UInt64.toNat_add, UInt64.toNat_mod]
    omega

/-- What a layout is when the constructor does not throw. -/
structure Built (system : System) (size entries : UInt64) (layout : Layout) : Prop where
  size : layout.size = alignSizeTo size system.pageSize
  internSize : layout.internSize = alignSizeTo sizeofCacheMmap system.pageSize
  tableSize : layout.tableSize = alignSizeTo (entries * 8) system.pageSize
  dataSize : layout.dataSize = layout.size - layout.tableSize - layout.internSize
  tableCount : layout.tableCount = entries.toUInt32
  table : layout.table = layout.intern + layout.internSize
  data : layout.data = layout.intern + layout.internSize + layout.tableSize
  smaller : layout.tableSize < layout.size
  mapped : layout.intern.toNat + layout.size.toNat ≤ 2 ^ 63

private theorem bind_ok {step : Except ε α} {next : α → Except ε β}
    (success : (step >>= next) = .ok result) : ∃ value, step = .ok value ∧ next value = .ok result := by
  cases step with
  | error reason => cases success
  | ok value => exact ⟨value, rfl, success⟩

theorem built_of_ctor (success : cacheMmapCtor system size entries = .ok layout) :
    Built system size entries layout := by
  unfold cacheMmapCtor at success
  dsimp only at success
  split at success
  · cases success
  · rename_i smaller
    obtain ⟨intern, granted, success⟩ := bind_ok success
    obtain ⟨_, -, success⟩ := bind_ok success
    obtain ⟨_, -, success⟩ := bind_ok success
    obtain ⟨_, -, success⟩ := bind_ok success
    obtain ⟨_, -, success⟩ := bind_ok success
    cases success
    have mapped : system.mmap (alignSizeTo size system.pageSize) = .ok intern := by
      cases outcome : system.mmap (alignSizeTo size system.pageSize) with
      | error reason =>
        rw [outcome] at granted
        cases granted
      | ok address =>
        rw [outcome] at granted
        cases granted
        rfl
    exact ⟨rfl, rfl, rfl, rfl, rfl, rfl, rfl, UInt64.not_le.mp smaller, system.mapped _ _ mapped⟩

theorem sizes (built : Built system size entries layout) :
    layout.size.toNat = roundUp size.toNat system.pageSize.toNat % 2 ^ 64 ∧
      layout.internSize.toNat = roundUp 144 system.pageSize.toNat % 2 ^ 64 ∧
      layout.tableSize.toNat = roundUp (entries.toNat * 8 % 2 ^ 64) system.pageSize.toNat % 2 ^ 64 ∧
      layout.tableCount.toNat = entries.toNat % 2 ^ 32 := by
  refine ⟨?_, ?_, ?_, ?_⟩
  · rw [built.size, alignSizeTo_toNat _ _ system.positive]
  · rw [built.internSize, alignSizeTo_toNat _ _ system.positive]
    rfl
  · rw [built.tableSize, alignSizeTo_toNat _ _ system.positive, UInt64.toNat_mul]
    rfl
  · rw [built.tableCount, UInt64.toNat_toUInt32]

/-- The header fits in its pages. -/
theorem header_fits (built : Built system size entries layout) :
    sizeofCacheMmap.toNat ≤ layout.internSize.toNat := by
  have header := (sizes built).2.1
  have page := system.pageSize.toNat_lt
  have positive := system.positive
  have rest := Nat.mod_lt 144 positive
  have whole := Nat.mod_le 144 system.pageSize.toNat
  change 144 ≤ _
  rw [header, roundUp]
  split
  · omega
  · by_cases larger : system.pageSize.toNat ≤ 144
    · omega
    · rw [Nat.mod_eq_of_lt (Nat.lt_of_not_le larger)]
      omega

/-- An append that succeeds writes inside the data segment. -/
theorem append_inside (mapped : layout.dataSize.toNat ≤ layout.size.toNat)
    (beside : layout.Beside size) (written : layout.append dataLength size = some (offset, after))
    (before : dataLength.toNat ≤ layout.dataSize.toNat) :
    offset.toNat + size.toNat ≤ after.toNat ∧ after.toNat ≤ layout.dataSize.toNat := by
  unfold Layout.Beside at beside
  unfold Layout.append at written
  dsimp only at written
  split at written
  · cases written
  · rename_i room
    cases written
    have aligned := alignSizeTo_toNat (size + 1) 8 (by decide)
    have rest := Nat.mod_lt (size + 1).toNat (show 0 < 8 by decide)
    have next : (size + 1).toNat = size.toNat + 1 := by
      rw [UInt64.toNat_add]
      change (size.toNat + 1) % 2 ^ 64 = _
      omega
    have roomy := UInt64.lt_iff_toNat_lt.mp (UInt64.not_le.mp room)
    rw [UInt64.toNat_add] at roomy ⊢
    rw [next] at aligned rest
    change _ = roundUp (size.toNat + 1) 8 % 2 ^ 64 at aligned
    unfold roundUp at aligned
    split at aligned
    · omega
    · omega

theorem lengthAfter_le (mapped : layout.dataSize.toNat ≤ layout.size.toNat) (changes : List Change)
    (beside : ∀ size, .append size ∈ changes → layout.Beside size) :
    (layout.lengthAfter changes).toNat ≤ layout.dataSize.toNat := by
  induction changes using List.reverseRecOn with
  | nil => exact Nat.zero_le _
  | append_singleton earlier change ih =>
    have before := ih fun size member => beside size (List.mem_append_left _ member)
    rw [Layout.lengthAfter, List.foldl_append]
    change (layout.change (layout.lengthAfter earlier) change).toNat ≤ _
    cases change with
    | reset => exact Nat.zero_le _
    | append size =>
      have here := beside size (List.mem_append_right _ List.mem_cons_self)
      cases written : layout.append (layout.lengthAfter earlier) size with
      | none =>
        rw [Layout.change, written]
        exact before
      | some result =>
        rw [Layout.change, written]
        exact (append_inside mapped here written before).2

theorem dvd_roundUp (count page : Nat) : page ∣ roundUp count page := by
  unfold roundUp
  split
  · rename_i whole
    exact Nat.dvd_of_mod_eq_zero whole
  · have split := Nat.div_add_mod count page
    refine ⟨count / page + 1, ?_⟩
    rw [Nat.mul_add, Nat.mul_one]
    omega

theorem roundUp_bounds (count : Nat) (positive : 0 < page) :
    count ≤ roundUp count page ∧ roundUp count page < count + page := by
  have rest := Nat.mod_lt count positive
  unfold roundUp
  split
  · omega
  · omega

/-- Where pages divide the address space and the header fits in one, it is enough that the
number of slots is not lost in 32 bits and that the table does not reach into the last page
of the address space. -/
theorem fits_iff_ordinary (large : 144 ≤ page) (small : page < 2 ^ 64) (divides : page ∣ 2 ^ 64)
    (smaller : roundUp (entries * 8 % 2 ^ 64) page % 2 ^ 64 < roundUp size page % 2 ^ 64) :
    Fits page size entries ↔ entries % 2 ^ 32 ≠ 0 ∧ entries * 8 % 2 ^ 64 + page ≤ 2 ^ 64 := by
  have positive : 0 < page := by omega
  have header : roundUp 144 page % 2 ^ 64 = page := by
    have bounds := roundUp_bounds 144 positive
    obtain ⟨count, pages⟩ := dvd_roundUp 144 page
    have one : count = 1 := by
      apply Nat.le_antisymm
      · apply Nat.le_of_lt_succ
        apply Nat.lt_of_mul_lt_mul_left (a := page)
        omega
      · apply Nat.pos_of_ne_zero
        rintro rfl
        omega
    rw [pages, one, Nat.mul_one]
    exact Nat.mod_eq_of_lt small
  have tableWhole := dvd_roundUp (entries * 8 % 2 ^ 64) page
  have bounds := roundUp_bounds (entries * 8 % 2 ^ 64) positive
  have room : page + roundUp (entries * 8 % 2 ^ 64) page % 2 ^ 64 ≤ roundUp size page % 2 ^ 64 := by
    have between := Nat.le_of_dvd (Nat.sub_pos_of_lt smaller)
      (Nat.dvd_sub ((Nat.dvd_mod_iff divides).mpr (dvd_roundUp size page))
        ((Nat.dvd_mod_iff divides).mpr tableWhole))
    omega
  constructor
  · rintro ⟨some, slots, -⟩
    refine ⟨some, ?_⟩
    apply Nat.le_of_not_lt
    intro last
    have whole : roundUp (entries * 8 % 2 ^ 64) page = 2 ^ 64 := by
      generalize roundUp (entries * 8 % 2 ^ 64) page = table at tableWhole bounds
      rcases Nat.lt_or_ge (2 ^ 64) table with above | below
      · have between := Nat.le_of_dvd (Nat.sub_pos_of_lt above) (Nat.dvd_sub tableWhole divides)
        omega
      · have nothing := Nat.eq_zero_of_dvd_of_lt (Nat.dvd_sub divides tableWhole) (by omega)
        omega
    rw [whole] at slots
    omega
  · rintro ⟨some, inside⟩
    refine ⟨some, ?_, ?_⟩
    · rw [Nat.mod_eq_of_lt (by omega : roundUp (entries * 8 % 2 ^ 64) page < 2 ^ 64)]
      omega
    · rw [header]
      exact room

theorem consistent_iff (built : Built system size entries layout) :
    layout.Consistent ↔ Fits system.pageSize.toNat size.toNat entries.toNat := by
  obtain ⟨total, header, table, count⟩ := sizes built
  have mapped := built.mapped
  constructor
  · intro consistent
    have placed := consistent.table
    have behind := consistent.data
    have inside := consistent.inside
    obtain ⟨some, slots⟩ := consistent.slots
    refine ⟨?_, ?_, ?_⟩
    · rw [← count]
      exact fun zero => some (UInt32.toNat_inj.mp zero)
    · rw [← count, ← table]
      exact slots
    · rw [← header, ← table, ← total]
      omega
  · rintro ⟨some, slots, fits⟩
    rw [← count] at some slots
    rw [← table] at slots fits
    rw [← header, ← total] at fits
    have nonzero : layout.tableCount ≠ 0 := by
      intro zero
      exact some (zero ▸ rfl)
    have dataSize : layout.dataSize.toNat =
        layout.size.toNat - layout.tableSize.toNat - layout.internSize.toNat := by
      have large := layout.size.toNat_lt
      rw [built.dataSize, UInt64.toNat_sub, UInt64.toNat_sub]
      omega
    have small : layout.dataSize.toNat ≤ layout.size.toNat := by omega
    have placed : layout.table.toNat = layout.intern.toNat + layout.internSize.toNat := by
      rw [built.table, UInt64.toNat_add]
      omega
    have behind : layout.data.toNat = layout.table.toNat + layout.tableSize.toNat := by
      rw [placed, built.data, UInt64.toNat_add, UInt64.toNat_add]
      omega
    refine ⟨header_fits built, placed, behind, by omega, ⟨nonzero, slots⟩, ?_, ?_⟩
    · intro hash
      refine ⟨hash % layout.tableCount, if_neg nonzero, ?_⟩
      have positive : 0 < layout.tableCount.toNat := Nat.pos_of_ne_zero some
      have below := Nat.mod_lt hash.toNat positive
      rw [UInt32.toNat_mod]
      omega
    · intro changes besides size beside offset after written
      exact append_inside small beside written (lengthAfter_le small changes besides)

/-- The layout that the constructor leaves is consistent for exactly the arguments that fit,
and what that comes to for pages that divide the address space and hold the header. -/
theorem layout_consistent_iff (success : cacheMmapCtor system size entries = .ok layout) :
    (layout.Consistent ↔ Fits system.pageSize.toNat size.toNat entries.toNat) ∧
      (144 ≤ system.pageSize.toNat → system.pageSize.toNat ∣ 2 ^ 64 →
        (layout.Consistent ↔ entries.toNat % 2 ^ 32 ≠ 0 ∧
          entries.toNat * 8 % 2 ^ 64 + system.pageSize.toNat ≤ 2 ^ 64)) := by
  have built := built_of_ctor success
  refine ⟨consistent_iff built, ?_⟩
  intro large divides
  obtain ⟨total, -, table, -⟩ := sizes built
  have smaller := UInt64.lt_iff_toNat_lt.mp built.smaller
  rw [total, table] at smaller
  exact (consistent_iff built).trans
    (fits_iff_ordinary large system.pageSize.toNat_lt divides smaller)

/-- Pages of 4096 bytes, where every mapping is granted at one address. -/
def ordinarySystem : System where
  pageSize := 4096
  positive := by decide
  mmap length := if length.toNat ≤ 2 ^ 46 then .ok 70368744177664 else .error (bytes "Cannot allocate memory")
  mapped length address granted := by
    split at granted
    · rename_i small
      cases granted
      change 70368744177664 + length.toNat ≤ 2 ^ 63
      omega
    · cases granted
  lockInit := .ok ()
  mprotect _ _ _ := .ok ()

theorem layout_consistent_tests :
    ∃ layout, cacheMmapCtor ordinarySystem 2097152 2053 = .ok layout ∧
      (layout.Consistent ↔ Fits 4096 2097152 2053) ∧
      (144 ≤ 4096 → 4096 ∣ 2 ^ 64 →
        (layout.Consistent ↔ 2053 % 2 ^ 32 ≠ 0 ∧ 2053 * 8 % 2 ^ 64 + 4096 ≤ 2 ^ 64)) :=
  ⟨_, rfl, @layout_consistent_iff ordinarySystem _ 2097152 2053 rfl⟩

/-- A cache with no slots is built, and its first key has none. -/
theorem not_layout_consistent :
    ¬∀ (system : System) (size entries : UInt64) (layout : Layout),
      cacheMmapCtor system size entries = .ok layout → layout.Consistent := by
  intro promise
  have consistent := promise ordinarySystem 2097152 0 _ rfl
  exact consistent.slots.1 rfl

end HandlebarsC.Mmap
