import HandlebarsC.Strings.Object
import HandlebarsC.Value.Escaping

/-!
`handlebars_string_htmlspecialchars_append`: one pass over the text counts what its
entities need, a second writes them without looking at the room that is left.
-/

namespace HandlebarsC.Strings

open Escape

/-- The table `htmlspecialchars` -/
def htmlspecialcharsPair (char : UInt8) : Option Str :=
  if char = 38 then some (bytes "&amp;")
  else if char = 34 then some (bytes "&quot;")
  else if char = 39 then some (bytes "&#x27;")
  else if char = 60 then some (bytes "&lt;")
  else if char = 62 then some (bytes "&gt;")
  else if char = 96 then some (bytes "&#x60;")
  else none

/-- One step of the pass from the back over the text. -/
def countChar (newLen : Nat) (char : UInt8) : Nat :=
  match htmlspecialcharsPair char with
  | some pair => newLen + (pair.length - 1)
  | none => newLen

/-- `new_len` behind the pass over the text. -/
def htmlspecialcharsLen (str : Str) : Nat :=
  str.reverse.foldl countChar str.length

/-- The loop that copies. -/
def htmlspecialcharsCopy (string : Object) : Str → Option Object
  | [] => some string
  | char :: rest =>
    match htmlspecialcharsPair char with
    | some pair => (string.appendUnsafe pair).bind (htmlspecialcharsCopy · rest)
    | none => (string.appendUnsafe [char]).bind (htmlspecialcharsCopy · rest)

/-- `handlebars_string_htmlspecialchars_append` to a string with one holder. -/
def htmlspecialcharsAppend (string : Object) (str : Str) : Option Object :=
  if str.length = 0 then some string
  else
    let newLen := htmlspecialcharsLen str
    if newLen = str.length then string.append str
    else htmlspecialcharsCopy (string.extend (string.len + newLen)) str

/-! ### Reading the entities back -/

/-- The character whose entity a text starts with, and the length of the entity. -/
def entityAt (text : Str) : Option (UInt8 × Nat) :=
  (bytes "&\"'<>`").findSome? fun char =>
    (htmlspecialcharsPair char).bind fun pair =>
      if pair.isPrefixOf text then some (char, pair.length) else none

/-- The text whose entities, from left to right, stand for their characters. The number
says how much of an entity is still to be skipped. -/
def decodeFrom : Nat → Str → Str
  | _, [] => []
  | skip + 1, _ :: rest => decodeFrom skip rest
  | 0, char :: rest =>
    match entityAt (char :: rest) with
    | some (decoded, length) => decoded :: decodeFrom (length - 1) rest
    | none => char :: decodeFrom 0 rest

def decodeEntities (text : Str) : Str := decodeFrom 0 text

variable {string : Object}

theorem htmlspecialchar_eq (char : UInt8) :
    htmlspecialchar char = (htmlspecialcharsPair char).getD [char] := by
  unfold htmlspecialchar htmlspecialcharsPair
  split_ifs <;> rfl

/-- Every entity starts with an ampersand. -/
theorem pair_starts (present : htmlspecialcharsPair char = some pair) :
    ∃ rest, pair = 38 :: rest := by
  unfold htmlspecialcharsPair at present
  split_ifs at present
  all_goals
    obtain rfl := Option.some.inj present
    exact ⟨_, rfl⟩

/-- A step of the count adds what a character needs beyond its own byte. -/
theorem countChar_eq (newLen : Nat) (char : UInt8) :
    countChar newLen char + 1 = newLen + (htmlspecialchar char).length := by
  rw [htmlspecialchar_eq]
  unfold countChar
  cases present : htmlspecialcharsPair char with
  | none => rfl
  | some pair =>
    obtain ⟨rest, rfl⟩ := pair_starts present
    simp only [Option.getD_some, List.length_cons]
    omega

theorem foldl_countChar (str : Str) (newLen : Nat) :
    str.foldl countChar newLen + str.length = newLen + (htmlspecialchars str).length := by
  induction str generalizing newLen with
  | nil => rfl
  | cons char rest ih =>
    have step := countChar_eq newLen char
    have later := ih (countChar newLen char)
    simp only [List.foldl_cons, List.length_cons, htmlspecialchars, List.flatMap_cons,
      List.length_append] at later ⊢
    omega

/-- The number of bytes that is reserved is the number of bytes of the escaped text. -/
theorem htmlspecialcharsLen_eq (str : Str) :
    htmlspecialcharsLen str = (htmlspecialchars str).length := by
  have counted := foldl_countChar str.reverse str.length
  have same : (htmlspecialchars str.reverse).length = (htmlspecialchars str).length := by
    unfold htmlspecialchars
    rw [List.length_flatMap, List.length_flatMap, List.map_reverse, List.sum_reverse]
  rw [List.length_reverse, same] at counted
  unfold htmlspecialcharsLen
  omega

/-- With room for the escaped text the loop writes it and stays in the allocation. -/
theorem htmlspecialcharsCopy_spec (str : Str)
    (room : string.len + (htmlspecialchars str).length < string.val.length) :
    ∃ after, htmlspecialcharsCopy string str = some after ∧
      after.text = string.text ++ htmlspecialchars str ∧ after.val.length = string.val.length := by
  induction str generalizing string with
  | nil => exact ⟨string, rfl, (List.append_nil _).symm, rfl⟩
  | cons char rest ih =>
    have whole : htmlspecialchars (char :: rest) = htmlspecialchar char ++ htmlspecialchars rest :=
      List.flatMap_cons
    rw [whole, List.length_append] at room
    have step : htmlspecialcharsCopy string (char :: rest) =
        (string.appendUnsafe (htmlspecialchar char)).bind (htmlspecialcharsCopy · rest) := by
      rw [htmlspecialchar_eq, htmlspecialcharsCopy]
      cases htmlspecialcharsPair char <;> rfl
    have here : string.len + (htmlspecialchar char).length < string.val.length := by omega
    obtain ⟨middle, success, appended, size⟩ := Object.appendUnsafe_spec here
    have behind : middle.len + (htmlspecialchars rest).length < middle.val.length := by
      rw [appended.len, size]
      omega
    obtain ⟨after, rest_success, text, final⟩ := ih behind
    refine ⟨after, ?_, ?_, final.trans size⟩
    · rw [step, success]
      exact rest_success
    · rw [text, appended.text, whole, List.append_assoc]

theorem htmlspecialchar_length (char : UInt8) :
    htmlspecialchar char = [char] ∨ 1 < (htmlspecialchar char).length := by
  unfold htmlspecialchar
  split_ifs
  all_goals first
    | exact .inl rfl
    | exact .inr (by decide)

theorem length_le_htmlspecialchars (str : Str) : str.length ≤ (htmlspecialchars str).length := by
  induction str with
  | nil => exact Nat.le_refl _
  | cons char rest ih =>
    have some : 1 ≤ (htmlspecialchar char).length := by
      rcases htmlspecialchar_length char with same | longer
      · rw [same]
        exact Nat.le_refl _
      · exact Nat.le_of_lt longer
    simp only [htmlspecialchars, List.flatMap_cons, List.length_append, List.length_cons] at ih ⊢
    omega

/-- Nothing is escaped where no more bytes are needed. -/
theorem htmlspecialchars_plain (same : (htmlspecialchars str).length = str.length) :
    htmlspecialchars str = str := by
  induction str with
  | nil => rfl
  | cons char rest ih =>
    have shortest := length_le_htmlspecialchars rest
    simp only [htmlspecialchars, List.flatMap_cons, List.length_append, List.length_cons] at same ih shortest ⊢
    rcases htmlspecialchar_length char with plain | longer
    · rw [plain, List.length_singleton] at same
      rw [plain, ih (by omega), List.singleton_append]
    · omega

/-- In front of any text an entity is recognised as that of its character. -/
theorem entityAt_pair (present : htmlspecialcharsPair char = some pair) (text : Str) :
    entityAt (pair ++ text) = some (char, pair.length) := by
  unfold htmlspecialcharsPair at present
  split_ifs at present
  all_goals
    subst_vars
    obtain rfl := Option.some.inj present
    rfl

/-- A character without an entity starts none. -/
theorem entityAt_plain (absent : htmlspecialcharsPair char = none) (text : Str) :
    entityAt (char :: text) = none := by
  have different : char ≠ 38 := by
    rintro rfl
    cases absent
  unfold entityAt
  rw [List.findSome?_eq_none_iff]
  intro special _
  cases present : htmlspecialcharsPair special with
  | none => rfl
  | some pair =>
    obtain ⟨rest, rfl⟩ := pair_starts present
    simp [different.symm]

theorem decodeFrom_skip (skipped text : Str) :
    decodeFrom skipped.length (skipped ++ text) = decodeFrom 0 text := by
  induction skipped with
  | nil => rfl
  | cons char skipped ih => exact ih

/-- What a character was written as is read back as the character. -/
theorem decodeFrom_htmlspecialchar (char : UInt8) (text : Str) :
    decodeFrom 0 (htmlspecialchar char ++ text) = char :: decodeFrom 0 text := by
  rw [htmlspecialchar_eq]
  cases present : htmlspecialcharsPair char with
  | none =>
    have plain := entityAt_plain present text
    simp only [Option.getD_none, List.singleton_append, decodeFrom, plain]
  | some pair =>
    have entity := entityAt_pair present text
    obtain ⟨rest, rfl⟩ := pair_starts present
    simp only [Option.getD_some, List.cons_append, decodeFrom] at entity ⊢
    rw [entity]
    exact congrArg (char :: ·) (decodeFrom_skip rest text)

/-- The loop, in the room that is reserved for it. -/
theorem htmlspecialcharsCopy_extend (string : Object) (str : Str) :
    ∃ after, htmlspecialcharsCopy (string.extend (string.len + htmlspecialcharsLen str)) str =
        some after ∧
      after.text = string.text ++ htmlspecialchars str ∧ after.val.length =
        max string.val.length (string.len + (htmlspecialchars str).length + 1) := by
  have room : (string.extend (string.len + htmlspecialcharsLen str)).len +
      (htmlspecialchars str).length <
        (string.extend (string.len + htmlspecialcharsLen str)).val.length := by
    rw [Object.len_extend, Object.room_extend, htmlspecialcharsLen_eq]
    omega
  obtain ⟨after, success, text, size⟩ := htmlspecialcharsCopy_spec str room
  refine ⟨after, success, ?_, ?_⟩
  · rw [text, Object.text_extend]
  · rw [size, Object.room_extend, htmlspecialcharsLen_eq]

theorem htmlspecialcharsLen_plain (same : htmlspecialcharsLen str = str.length) :
    htmlspecialchars str = str :=
  htmlspecialchars_plain ((htmlspecialcharsLen_eq str).symm.trans same)

/-- The escaped text is appended. -/
theorem htmlspecialcharsAppend_spec (string : Object) (str : Str) :
    ∃ after, htmlspecialcharsAppend string str = some after ∧
      after.text = string.text ++ htmlspecialchars str ∧ after.val.length =
        max string.val.length (string.len + (htmlspecialchars str).length + 1) := by
  unfold htmlspecialcharsAppend
  dsimp only
  split_ifs with empty same
  · obtain rfl := List.length_eq_zero_iff.mp empty
    have room := string.fits
    refine ⟨string, rfl, (List.append_nil _).symm, ?_⟩
    change _ = max _ (string.len + 0 + 1)
    omega
  · obtain ⟨short, appended, shortText, shortSize⟩ := string.append_spec str
    rw [htmlspecialcharsLen_plain same]
    exact ⟨short, appended, shortText.text, shortSize⟩
  · exact htmlspecialcharsCopy_extend string str

/-- What an append of escaped text does to a string of any length and allocation: the room it
reserves is the room it needs, what it adds is the escaped text, which has no special
character that is not the start of an entity and stands for the text, and the short way for
texts without special characters does the same. -/
theorem htmlspecialchars_append_exact (string : Object) (str : Str) :
    htmlspecialcharsLen str = (htmlspecialchars str).length ∧
      (∃ after, htmlspecialcharsAppend string str = some after ∧
        after.text = string.text ++ htmlspecialchars str ∧
        after.val.length =
          max string.val.length (string.len + (htmlspecialchars str).length + 1)) ∧
      Escaped (htmlspecialchars str) ∧
      decodeEntities (htmlspecialchars str) = str ∧
      (htmlspecialcharsLen str = str.length →
        (string.append str).map Object.text =
          (htmlspecialcharsCopy (string.extend (string.len + htmlspecialcharsLen str)) str).map
            Object.text) := by
  obtain ⟨long, success, longText, -⟩ := htmlspecialcharsCopy_extend string str
  obtain ⟨short, appended, shortText, -⟩ := string.append_spec str
  refine ⟨htmlspecialcharsLen_eq str, htmlspecialcharsAppend_spec string str,
    escaped_of_clean (clean_htmlspecialchars str),
    decode_flatMap rfl decodeFrom_htmlspecialchar str, ?_⟩
  intro same
  rw [appended, success, Option.map_some, Option.map_some, shortText.text, longText,
    htmlspecialcharsLen_plain same]

example : decodeEntities (bytes "&lt;&amp;lt;&x") = bytes "<&lt;&x" := by decide

end HandlebarsC.Strings
