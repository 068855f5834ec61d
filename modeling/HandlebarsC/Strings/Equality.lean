import Mathlib.Data.Fintype.Pigeonhole
import Mathlib.Data.Set.Basic
import HandlebarsC.Cache.Lmdb
import HandlebarsC.Cache.Mmap
import HandlebarsC.Cache.Simple
import HandlebarsC.Core.Text
import HandlebarsC.Map.Model

/-!
`handlebars_string_eq` compares lengths and hashes. What uses it to tell strings apart: maps,
caches and the parser, where a block is closed.
-/

namespace HandlebarsC.Strings

/-- The check that a block is closed under the name it was opened with: a parse error in
`handlebars_ast_helper_prepare_block` and `handlebars_ast_helper_prepare_partial_block`, and
an error in `handlebars_ast_helper_prepare_raw_block`. -/
def checkClose (num : ErrorType) (hash : StringHash) (locinfo : LocInfo) (opening closing : Str) :
    Except Error Unit :=
  if !stringEq hash opening closing then
    .error ⟨num, cstring opening ++ bytes " doesn't match " ++ cstring closing, locinfo⟩
  else .ok ()

/-- What is promised of a set of strings: only equal ones are taken for equal, a map returns
the value of the key, a cache the module of the template, and a block is closed under the
name it was opened with. -/
structure TellsApart (env : Lmdb.Env) (strings : Set Str) : Prop where
  eq : ∀ left ∈ strings, ∀ right ∈ strings, stringEq env.hash left right = true ↔ left = right
  map : ∀ (α : Type) (map : Map α), (∀ index entry, map.entryAt index = some entry →
      entry.key ∈ strings) → ∀ key ∈ strings, ∀ value, map.find env.hash key = .ok (some value) →
    ∃ index entry, map.entryAt index = some entry ∧ entry.key = key ∧ entry.value = value
  simple : ∀ (cache after : Simple.Cache) (simple : Simple.Env), simple.hash = env.hash →
    (∀ entry ∈ cache.map, entry.1 ∈ strings) → ∀ tmpl ∈ strings, ∀ now ptr,
      Simple.cacheFind simple now cache tmpl = some (some ptr, after) → (tmpl, ptr) ∈ cache.map
  mmap : ∀ cache after : Mmap.Cache, (∀ entry stored data,
      Mmap.readEntry cache entry = some (stored, data) → stored ∈ strings) →
    ∀ key ∈ strings, ∀ now data,
      Mmap.cacheFind env.hash now cache key = some (.ok (some data), after) →
        ∃ entry, Mmap.readEntry cache entry = some (key, data)
  lmdb : ∀ left ∈ strings, ∀ right ∈ strings,
    Lmdb.makeKey env left = Lmdb.makeKey env right → left = right
  close : ∀ opening ∈ strings, ∀ closing ∈ strings, ∀ num locinfo,
    checkClose num env.hash locinfo opening closing = .ok () → opening = closing

/-- No two different strings have the same hash and the same length, or the same hash and
both more bytes than a key of the database can have. -/
def HashesApart (env : Lmdb.Env) (strings : Set Str) : Prop :=
  ∀ left ∈ strings, ∀ right ∈ strings, env.hash left = env.hash right →
    left.length = right.length ∨ (env.maxKeySize < left.length ∧ env.maxKeySize < right.length) →
      left = right

variable {hash : StringHash} {env : Lmdb.Env} {strings : Set Str}

/-- The search in a table ends at an entry whose key is taken for the one looked for. -/
theorem findLoop_key {map : Map α} {key : Str} (start left i : Nat) (ret : Map.FindResult)
    (none : ret.entry = none) (found : Map.findLoop hash map key start left i ret = .ok result)
    (place : result.entry = some (slot, index)) :
    ∃ entry, map.entryAt index = some entry ∧ stringEq hash entry.key key = true := by
  induction left generalizing i ret with
  | zero =>
    cases found
    rw [none] at place
    cases place
  | succ left ih =>
    rw [Map.findLoop] at found
    split at found
    · cases found
      rw [none] at place
      cases place
    · refine ih _ _ ?_ found
      split
      · exact none
      · exact none
    · rename_i stored _
      split at found
      · rename_i entry present
        split at found
        · rename_i same
          cases found
          cases place
          exact ⟨entry, present, same⟩
        · exact ih _ _ none found
      · cases found
    · cases found

theorem find_key {map : Map α} {key : Str} (found : map.find hash key = .ok (some value)) :
    ∃ index entry, map.entryAt index = some entry ∧ stringEq hash entry.key key = true ∧
      entry.value = value := by
  rw [Map.find] at found
  cases searched : map.findEntry hash key with
  | error failure =>
    rw [searched] at found
    cases found
  | ok ret =>
    rw [searched] at found
    have present : (ret.entry.bind fun place => map.entryAt place.2).map MapEntry.value = some value :=
      Except.ok.inj found
    obtain ⟨entry, inside, same⟩ := Option.map_eq_some_iff.mp present
    obtain ⟨⟨slot, index⟩, place, held⟩ := Option.bind_eq_some_iff.mp inside
    obtain ⟨stored, there, equal⟩ := findLoop_key _ _ _ _ rfl searched place
    obtain rfl := Option.some.inj (there.symm.trans held)
    exact ⟨index, stored, there, equal, same⟩

theorem mmap_find_key {cache : Mmap.Cache}
    (found : Mmap.cacheFind hash now cache key = some (.ok (some data), after)) :
    ∃ entry stored, Mmap.readEntry cache entry = some (stored, data) ∧
      stringEq hash key stored = true := by
  unfold Mmap.cacheFind at found
  split at found
  · cases found
  · obtain ⟨slot, -, found⟩ := Option.bind_eq_some_iff.mp found
    obtain ⟨pointer, -, found⟩ := Option.bind_eq_some_iff.mp found
    split at found
    · cases found
    · rename_i entry
      obtain ⟨⟨stored, addr⟩, present, found⟩ := Option.bind_eq_some_iff.mp found
      dsimp only at found
      split at found
      · cases found
      · rename_i same
        have equal : stringEq hash key stored = true := by simpa using same
        obtain ⟨module, -, found⟩ := Option.bind_eq_some_iff.mp found
        split_ifs at found
        · cases found
          exact ⟨entry, stored, present, equal⟩
        · cases found
        · cases found
          exact ⟨entry, stored, present, equal⟩

/-- Of strings whose hashes are apart only equal ones are taken for equal. -/
theorem HashesApart.eq (apart : HashesApart env strings) (left : first ∈ strings)
    (right : second ∈ strings) (same : stringEq env.hash first second = true) : first = second := by
  obtain ⟨lengths, hashes⟩ := (stringEq_iff _ _ _).mp same
  exact apart first left second right hashes (.inl lengths)

theorem HashesApart.tellsApart (apart : HashesApart env strings) : TellsApart env strings where
  eq left leftIn right rightIn := by
    constructor
    · exact apart.eq leftIn rightIn
    · rintro rfl
      exact stringEq_refl _ _
  map α map keys key keyIn value found := by
    obtain ⟨index, entry, held, same, stored⟩ := find_key found
    exact ⟨index, entry, held, apart.eq (keys index entry held) keyIn same, stored⟩
  simple cache after simple hashes keys tmpl tmplIn now ptr found := by
    unfold Simple.cacheFind at found
    split at found
    · rename_i stored present
      obtain ⟨module, -, same⟩ := Option.map_eq_some_iff.mp found
      cases same
      obtain ⟨key, member, equal⟩ := StrMap.find_some present
      rw [hashes] at equal
      obtain rfl := apart.eq (keys _ member) tmplIn equal
      exact member
    · cases found
  mmap cache after keys key keyIn now data found := by
    obtain ⟨entry, stored, present, same⟩ := mmap_find_key found
    obtain rfl := apart.eq keyIn (keys entry stored data present) same
    exact ⟨entry, present⟩
  lmdb left leftIn right rightIn same := by
    rcases (Lmdb.makeKey_eq_iff env left right).mp same with equal | ⟨longLeft, longRight, hashes⟩
    · exact equal
    · exact apart left leftIn right rightIn hashes (.inr ⟨longLeft, longRight⟩)
  close opening openingIn closing closingIn num locinfo accepted := by
    unfold checkClose at accepted
    split at accepted
    · cases accepted
    · rename_i same
      exact apart.eq openingIn closingIn (by simpa using same)

theorem TellsApart.hashesApart (promise : TellsApart env strings) : HashesApart env strings := by
  intro left leftIn right rightIn hashes close
  rcases close with lengths | ⟨longLeft, longRight⟩
  · exact (promise.eq left leftIn right rightIn).mp ((stringEq_iff _ _ _).mpr ⟨lengths, hashes⟩)
  · exact promise.lmdb left leftIn right rightIn
      ((Lmdb.makeKey_eq_iff env left right).mpr (.inr ⟨longLeft, longRight, hashes⟩))

/-! ### Every hash has collisions -/

/-- Five bytes for a number. -/
def fiveBytes (number : Nat) : Str :=
  [UInt8.ofNat number, UInt8.ofNat (number / 256), UInt8.ofNat (number / 65536),
    UInt8.ofNat (number / 16777216), UInt8.ofNat (number / 4294967296)]

theorem fiveBytes_injective (small : left < 2 ^ 40) (smallToo : right < 2 ^ 40)
    (same : fiveBytes left = fiveBytes right) : left = right := by
  simp only [fiveBytes, List.cons.injEq, and_true] at same
  obtain ⟨first, second, third, fourth, fifth⟩ := same
  have digits (number other : Nat) (equal : UInt8.ofNat number = UInt8.ofNat other) :
      number % 256 = other % 256 := by
    have values := congrArg UInt8.toNat equal
    simpa only [UInt8.toNat_ofNat'] using values
  have first := digits _ _ first
  have second := digits _ _ second
  have third := digits _ _ third
  have fourth := digits _ _ fourth
  have fifth := digits _ _ fifth
  omega

/-- There are more strings of five bytes than hashes. -/
theorem exists_collision (hash : StringHash) :
    ∃ left right : Str, left ≠ right ∧ left.length = right.length ∧ hash left = hash right := by
  obtain ⟨left, right, different, same⟩ :=
    Fintype.exists_ne_map_eq_of_card_lt
      (fun number : Fin (2 ^ 32 + 1) => (⟨(hash (fiveBytes number)).toNat, UInt32.toNat_lt _⟩ : Fin (2 ^ 32)))
      (by rw [Fintype.card_fin, Fintype.card_fin]; exact Nat.lt_succ_self _)
  refine ⟨fiveBytes left, fiveBytes right, ?_, rfl, UInt32.toNat_inj.mp (congrArg Fin.val same)⟩
  intro equal
  apply different
  apply Fin.ext
  have bound : (2 : Nat) ^ 32 + 1 ≤ 2 ^ 40 := by decide
  exact fiveBytes_injective (by omega) (by omega) equal

/-- The promise is kept for exactly the sets of strings whose hashes are apart, and for no
hash is that the set of all strings. -/
theorem tells_apart_iff (env : Lmdb.Env) (strings : Set Str) :
    (TellsApart env strings ↔ HashesApart env strings) ∧ ¬HashesApart env Set.univ := by
  refine ⟨⟨TellsApart.hashesApart, HashesApart.tellsApart⟩, ?_⟩
  intro apart
  obtain ⟨left, right, different, lengths, hashes⟩ := exists_collision env.hash
  exact different (apart left trivial right trivial hashes (.inl lengths))

/-- `XXH3_len_4to8_64b` under the default secret and no seed, which hashes strings of four to
seven bytes. -/
def xxh3Short (input : Str) : UInt64 :=
  let word (bytes : Str) : UInt64 := bytes.foldr (fun byte value => value * 256 + byte.toUInt64) 0
  let input64 := word (input.drop (input.length - 4)) + (word (input.take 4) <<< 32)
  let x := input64 ^^^ 0xc73ab174c5ecd5a2
  let x := x ^^^ (((x <<< 49) ||| (x >>> 15)) ^^^ ((x <<< 24) ||| (x >>> 40)))
  let x := x * 0x9fb21c651e98df25
  let x := x ^^^ ((x >>> 35) + UInt64.ofNat input.length)
  let x := x * 0x9fb21c651e98df25
  x ^^^ (x >>> 28)

/-- The hash of strings of four to seven bytes; other lengths play no part in what follows. -/
def shortEnv : Lmdb.Env where
  hash input := (xxh3Short input).toUInt32
  maxKeySize := 511
  moduleHash _ := 0
  badValsize := bytes "MDB_BAD_VALSIZE: Unsupported size of key/DB name/data, or wrong DUPFIXED size"

/-- A block opened as `aqlw` may be closed as `dgsn`. -/
theorem not_tells_apart : ¬TellsApart shortEnv {bytes "aqlw", bytes "dgsn"} := by
  intro promise
  have taken : stringEq shortEnv.hash (bytes "aqlw") (bytes "dgsn") = true := by decide
  have accepted : checkClose .parseerr shortEnv.hash .zero (bytes "aqlw") (bytes "dgsn") = .ok () := by
    rw [checkClose, taken]
    rfl
  have equal := promise.close _ (.inl rfl) _ (.inr rfl) _ _ accepted
  revert equal
  decide

end HandlebarsC.Strings
