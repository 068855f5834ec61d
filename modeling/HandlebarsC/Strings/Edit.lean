import Mathlib.Data.List.DropRight
import HandlebarsC.Strings.Object
import HandlebarsC.Parser.Slashes

/-!
The functions that cut a string with one holder, or print to it, and those that build a new
string.
-/

namespace HandlebarsC.Strings

namespace Object

variable {string after : Object}

/-- The byte behind the text is a zero. -/
def Terminated (string : Object) : Prop := string.val[string.len]? = some 0

/-- `handlebars_string_truncate`. There is no result where `string->len - start` wraps around. -/
def truncate (string : Object) (start stop : Nat) : Option Object :=
  let len := if stop < string.len then stop else string.len
  if start > len then none
  else
    (Buffer.write string.val 0 ((string.val.drop start).take (len - start))).bind fun val =>
    (Buffer.write val (len - start) [0]).bind fun val =>
    (string.resized val (len - start)).map fun string => { string with hash := 0 }

/-- The end of `handlebars_string_vasprintf_append`, from `vsnprintf` on. -/
def printAt (string : Object) (slen : Nat) (printed : Str) : Option Object :=
  (Buffer.write string.val slen (printed ++ [0])).bind fun val =>
  (string.resized val (string.len + printed.length)).map fun string => { string with hash := 0 }

/-- What `handlebars_string_stripcslashes` writes through `target`. -/
def writeTarget (string : Object) (target : Str) : Option Object :=
  (Buffer.write string.val 0 (target ++ [0])).bind fun val => string.resized val string.len

/-- The length that `handlebars_string_stripcslashes` sets, without a hash. -/
def setLen (string : Object) (nlen : Nat) : Option Object :=
  (string.resized string.val nlen).map fun string => { string with hash := 0 }

/-- `*ptr && flags[(unsigned char) *ptr]` -/
def isTrimmed (what : Str) (char : UInt8) : Bool := char != 0 && what.contains char

/-- `handlebars_string_ltrim`. There is no result where it runs past the text. -/
def ltrim (string : Object) (what : Str) : Option Object :=
  if string.len = 0 then some string
  else
    let trimmed := (string.val.takeWhile (isTrimmed what)).length
    if trimmed > string.len then none
    else if trimmed > 0 then
      (Buffer.write string.val 0 ((string.val.drop trimmed).take (string.len - trimmed + 1))).bind
        fun val => string.resized val (string.len - trimmed)
    else some string

/-- The loop of `handlebars_string_rtrim`, with the length. -/
def rtrimLoop (what : Str) : Nat → Str → Str × Nat
  | 0, val => (val, 0)
  | len + 1, val =>
    if (val[len]?).any what.contains then rtrimLoop what len (val.set len 0) else (val, len + 1)

/-- `handlebars_string_rtrim` -/
def rtrim (string : Object) (what : Str) : Option Object :=
  if string.len = 0 then some string
  else
    let (val, len) := rtrimLoop what string.len string.val
    string.resized val len

/-- `handlebars_string_addcslashes` -/
def addcslashes (string : Object) (what : Str) : Option Object :=
  let newString := Object.init (string.len * 4 + 1)
  let target := Parser.addcslashes string.text what
  (Buffer.write newString.val 0 (target ++ [0])).bind fun val =>
  (newString.resized val target.length).map fun newString => { newString with hash := 0 }.compact

/-- The loop of `handlebars_string_implode` behind the first part. -/
def implodeLoop (sep : Str) (string : Object) : List Str → Option Object
  | [] => some string
  | part :: parts =>
    (string.appendUnsafe sep).bind fun string =>
    (string.appendUnsafe part).bind fun string => implodeLoop sep string parts

/-- `handlebars_string_implode` -/
def implode (sep : Str) (parts : List Str) : Option Object :=
  let len := (parts.map fun part => part.length + sep.length).sum
  match parts with
  | [] => some (init 0)
  | part :: parts =>
    if len > 0 then
      ((init (len - sep.length)).appendUnsafe part).bind fun string => implodeLoop sep string parts
    else some (init 0)

variable {chars : Str} {length : Nat}

theorem resized_some (cut : string.resized chars length = some after) :
    after.text = chars.take length ∧ after.hash = string.hash ∧
      after.refcount = string.refcount := by
  unfold resized at cut
  split at cut
  · cases cut
    exact ⟨rfl, rfl, rfl⟩
  · cases cut

theorem exists_resized (string : Object) (fits : length < chars.length) :
    ∃ after, string.resized chars length = some after :=
  ⟨_, dif_pos fits⟩

theorem text_drop (string : Object) (start : Nat) (inside : stop ≤ string.len) :
    (string.val.drop start).take (stop - start) = (string.text.take stop).drop start := by
  rw [text, List.take_take, Nat.min_eq_left inside, List.drop_take]

/-- What is left is the text between the two places. -/
theorem truncate_spec (string : Object) (inside : start ≤ min stop string.len) :
    ∃ after, string.truncate start stop = some after ∧
      after.text = (string.text.take stop).drop start ∧ after.hash = 0 ∧
      after.refcount = string.refcount := by
  have least : (if stop < string.len then stop else string.len) = min stop string.len := by
    split
    · omega
    · omega
  have room := string.fits
  have size : ((string.val.drop start).take (min stop string.len - start)).length =
      min stop string.len - start := by
    rw [List.length_take, List.length_drop]
    omega
  obtain ⟨moved, first⟩ : ∃ moved, Buffer.write string.val 0
      ((string.val.drop start).take (min stop string.len - start)) = some moved :=
    Buffer.exists_write (by omega)
  have length := Buffer.length_write first
  obtain ⟨chars, second⟩ :
      ∃ chars, Buffer.write moved (min stop string.len - start) [0] = some chars :=
    Buffer.exists_write (by rw [List.length_singleton]; omega)
  have lengthAfter := Buffer.length_write second
  obtain ⟨after, cut⟩ :=
    string.exists_resized (show min stop string.len - start < chars.length by omega)
  obtain ⟨text, -, refcount⟩ := resized_some cut
  refine ⟨{ after with hash := 0 }, ?_, ?_, rfl, refcount⟩
  · unfold truncate
    rw [least]
    dsimp only
    rw [if_neg (by omega), first, Option.bind_some, second, Option.bind_some, cut, Option.map_some]
  · change after.text = _
    have front := Buffer.take_write_end first
    rw [Nat.zero_add, size, List.take_zero, List.nil_append] at front
    rw [text, Buffer.take_write second (Nat.le_refl _), front,
      text_drop string start (Nat.min_le_right _ _), ← List.take_take, ← string.length_text,
      List.take_length]

/-- With the places in another order there is no result. -/
theorem truncate_outside (outside : min stop string.len < start) :
    string.truncate start stop = none := by
  unfold truncate
  apply if_pos
  split
  · omega
  · omega

/-- Printing behind the text is appending what is printed. -/
theorem printAt_len (string : Object) (printed : Str) :
    string.printAt string.len printed = string.appendUnsafe printed := by
  unfold printAt appendUnsafe
  split
  · rename_i failed
    rw [failed, Option.bind_none]
  · rename_i chars written
    have fits := (Buffer.write_some written).1
    have length := Buffer.length_write written
    rw [List.length_append, List.length_singleton] at fits
    have room : string.len + printed.length < chars.length := by omega
    simp only [written, Option.bind_some, resized, room, dif_pos, Option.map_some]

theorem writeTarget_spec (room : target.length ≤ string.len) :
    ∃ after, string.writeTarget target = some after ∧ after.val.take target.length = target ∧
      after.text = (target ++ 0 :: string.val.drop (target.length + 1)).take string.len ∧
      after.len = string.len ∧ after.hash = string.hash ∧ after.refcount = string.refcount := by
  have fits := string.fits
  have inside : 0 + (target ++ [0]).length ≤ string.val.length := by
    rw [List.length_append, List.length_singleton]
    omega
  obtain ⟨chars, written⟩ := Buffer.exists_write inside
  obtain ⟨-, content⟩ := Buffer.write_some written
  rw [List.take_zero, List.nil_append, Nat.zero_add, List.length_append, List.length_singleton,
    List.append_assoc, List.singleton_append] at content
  have size := Buffer.length_write written
  have within : string.len < chars.length := by omega
  refine ⟨{ string with val := chars, fits := within }, ?_, ?_, ?_, rfl, rfl, rfl⟩
  · rw [writeTarget, written, Option.bind_some]
    exact dif_pos within
  · change chars.take _ = _
    rw [content]
    exact List.take_left
  · change chars.take string.len = _
    rw [content]

theorem setLen_spec (room : nlen ≤ string.len) :
    ∃ after, string.setLen nlen = some after ∧ after.text = string.val.take nlen ∧
      after.hash = 0 ∧ after.refcount = string.refcount := by
  have fits := string.fits
  obtain ⟨after, cut⟩ := string.exists_resized (show nlen < string.val.length by omega)
  obtain ⟨text, -, refcount⟩ := resized_some cut
  exact ⟨{ after with hash := 0 }, by rw [setLen, cut, Option.map_some], text, rfl, refcount⟩

/-- A run at the start of a text, where it ends inside, is the one that is dropped. -/
theorem dropWhile_take {drops : UInt8 → Bool} (inside : (chars.takeWhile drops).length ≤ length) :
    (chars.take length).dropWhile drops =
      (chars.take length).drop (chars.takeWhile drops).length := by
  induction chars generalizing length with
  | nil => simp
  | cons char chars ih =>
    cases length with
    | zero => simp
    | succ length =>
      rw [List.take_succ_cons]
      by_cases drop : drops char = true
      · rw [List.takeWhile_cons_of_pos drop] at inside ⊢
        rw [List.dropWhile_cons_of_pos drop, List.length_cons, List.drop_succ_cons]
        exact ih (Nat.le_of_succ_le_succ inside)
      · rw [List.takeWhile_cons_of_neg drop, List.dropWhile_cons_of_neg drop]
        rfl

/-- A run ends in front of a character that is not of its kind. -/
theorem takeWhile_le (stays : UInt8 → Bool) (stop : chars[length]? = some char)
    (other : stays char = false) : (chars.takeWhile stays).length ≤ length := by
  induction chars generalizing length with
  | nil => simp
  | cons first chars ih =>
    by_cases stay : stays first = true
    · rw [List.takeWhile_cons_of_pos stay, List.length_cons]
      cases length with
      | zero =>
        cases stop
        rw [other] at stay
        cases stay
      | succ length => exact Nat.succ_le_succ (ih stop)
    · rw [List.takeWhile_cons_of_neg stay]
      exact Nat.zero_le _

/-- What is left of a text does not depend on what lies behind it. -/
theorem ltrim_some (trimmed : string.ltrim what = some after) :
    after.text = string.text.dropWhile (isTrimmed what) ∧ after.hash = string.hash ∧
      after.refcount = string.refcount := by
  unfold ltrim at trimmed
  dsimp only at trimmed
  split_ifs at trimmed with empty outside some
  · cases trimmed
    have nothing : string.text = [] := List.length_eq_zero_iff.mp (string.length_text.trans empty)
    exact ⟨by rw [nothing]; rfl, rfl, rfl⟩
  · obtain ⟨moved, written, cut⟩ := Option.bind_eq_some_iff.mp trimmed
    obtain ⟨text, hash, refcount⟩ := resized_some cut
    have room := string.fits
    have size : ((string.val.drop (string.val.takeWhile (isTrimmed what)).length).take
        (string.len - (string.val.takeWhile (isTrimmed what)).length + 1)).length =
          string.len - (string.val.takeWhile (isTrimmed what)).length + 1 := by
      rw [List.length_take, List.length_drop]
      omega
    have front := Buffer.take_write_end written
    rw [Nat.zero_add, size, List.take_zero, List.nil_append] at front
    have shorter := congrArg
      (List.take (string.len - (string.val.takeWhile (isTrimmed what)).length)) front
    rw [List.take_take, List.take_take, Nat.min_eq_left (Nat.le_succ _),
      text_drop string _ (Nat.le_refl _), ← string.length_text, List.take_length] at shorter
    refine ⟨?_, hash, refcount⟩
    rw [text, ← string.length_text, shorter]
    exact (dropWhile_take (Nat.le_of_not_lt outside)).symm
  · cases trimmed
    have none : (string.val.takeWhile (isTrimmed what)).length = 0 := Nat.eq_zero_of_not_pos some
    have kept := dropWhile_take (Nat.le_of_not_lt outside)
    rw [none] at kept
    exact ⟨kept.symm, rfl, rfl⟩

theorem exists_ltrim (terminated : string.Terminated) (what : Str) :
    ∃ after, string.ltrim what = some after := by
  have inside := takeWhile_le (isTrimmed what) terminated rfl
  have room := string.fits
  unfold ltrim
  dsimp only
  split_ifs with empty outside some
  · exact ⟨string, rfl⟩
  · omega
  · obtain ⟨moved, written⟩ : ∃ moved, Buffer.write string.val 0
        ((string.val.drop (string.val.takeWhile (isTrimmed what)).length).take
          (string.len - (string.val.takeWhile (isTrimmed what)).length + 1)) = .some moved :=
      Buffer.exists_write (by rw [List.length_take, List.length_drop]; omega)
    have length := Buffer.length_write written
    rw [written, Option.bind_some]
    exact string.exists_resized (by omega)
  · exact ⟨string, rfl⟩

/-- The loop of `handlebars_string_rtrim` stops where the characters that are trimmed start. -/
theorem rtrimLoop_spec (what chars : Str) (inside : length < chars.length) :
    (rtrimLoop what length chars).2 < (rtrimLoop what length chars).1.length ∧
      (rtrimLoop what length chars).1.take (rtrimLoop what length chars).2 =
        (chars.take length).rdropWhile what.contains := by
  induction length generalizing chars with
  | zero => exact ⟨inside, rfl⟩
  | succ length ih =>
    have here : chars[length]? = some chars[length] := List.getElem?_eq_getElem _
    have snoc : chars.take (length + 1) = chars.take length ++ [chars[length]] :=
      List.take_succ_eq_append_getElem _
    rw [rtrimLoop, here, Option.any_some, snoc]
    by_cases trims : what.contains chars[length] = true
    · obtain ⟨room, text⟩ := ih (chars.set length 0) (by rw [List.length_set]; omega)
      rw [if_pos trims, List.rdropWhile_concat_pos _ _ _ trims]
      refine ⟨room, text.trans ?_⟩
      rw [List.take_set_of_le (Nat.le_refl length)]
    · rw [if_neg trims, List.rdropWhile_concat_neg _ _ _ trims]
      exact ⟨inside, snoc⟩

theorem rtrim_spec (string : Object) (what : Str) :
    ∃ after, string.rtrim what = some after ∧
      after.text = string.text.rdropWhile what.contains ∧ after.hash = string.hash ∧
      after.refcount = string.refcount := by
  unfold rtrim
  split_ifs with empty
  · have nothing : string.text = [] := List.length_eq_zero_iff.mp (string.length_text.trans empty)
    exact ⟨string, rfl, by rw [nothing]; rfl, rfl, rfl⟩
  · obtain ⟨room, cut⟩ := rtrimLoop_spec what string.val string.fits
    obtain ⟨after, success⟩ := string.exists_resized room
    obtain ⟨text, hash, refcount⟩ := resized_some success
    exact ⟨after, success, text.trans cut, hash, refcount⟩

theorem length_addcslash (char : UInt8) : (Parser.addcslash char).length ≤ 4 := by
  revert char
  exact forall_byte (by decide +kernel)

theorem length_addcslashes (text what : Str) :
    (Parser.addcslashes text what).length ≤ text.length * 4 := by
  induction text with
  | nil => exact Nat.le_refl _
  | cons char text ih =>
    have longest := length_addcslash char
    simp only [Parser.addcslashes, List.flatMap_cons, List.length_append, List.length_cons] at ih ⊢
    split
    · omega
    · rw [List.length_singleton]
      omega

/-- Four bytes for each character are enough. -/
theorem addcslashes_spec (string : Object) (what : Str) :
    ∃ after, string.addcslashes what = some after ∧
      after.text = Parser.addcslashes string.text what ∧ after.hash = 0 := by
  have longest := length_addcslashes string.text what
  rw [string.length_text] at longest
  have size : (init (string.len * 4 + 1)).val.length = string.len * 4 + 1 + 1 :=
    List.length_replicate
  obtain ⟨chars, written⟩ : ∃ chars, Buffer.write (init (string.len * 4 + 1)).val 0
      (Parser.addcslashes string.text what ++ [0]) = some chars :=
    Buffer.exists_write (by rw [List.length_append, List.length_singleton]; omega)
  have length := Buffer.length_write written
  obtain ⟨cut, success⟩ := (init (string.len * 4 + 1)).exists_resized
    (show (Parser.addcslashes string.text what).length < chars.length by omega)
  obtain ⟨text, -, -⟩ := resized_some success
  refine ⟨({ cut with hash := 0 } : Object).compact, ?_, ?_, hash_compact _⟩
  · unfold addcslashes
    dsimp only
    rw [written, Option.bind_some, success, Option.map_some]
  · rw [text_compact]
    change cut.text = _
    obtain ⟨-, rfl⟩ := Buffer.write_some written
    rw [text, List.take_zero, List.nil_append, List.append_assoc]
    exact List.take_left

theorem implodeLoop_spec (sep : Str) (parts : List Str)
    (room : string.len + (parts.map fun part => part.length + sep.length).sum < string.val.length) :
    ∃ after, implodeLoop sep string parts = some after ∧
      after.text = string.text ++ parts.flatMap (sep ++ ·) := by
  induction parts generalizing string with
  | nil => exact ⟨string, rfl, (List.append_nil _).symm⟩
  | cons part parts ih =>
    rw [List.map_cons, List.sum_cons] at room
    obtain ⟨separated, first, appended, size⟩ :=
      appendUnsafe_spec (show string.len + sep.length < string.val.length by omega)
    have length := appended.len
    obtain ⟨next, second, joined, sizeAfter⟩ :=
      appendUnsafe_spec (show separated.len + part.length < separated.val.length by omega)
    have lengthAfter := joined.len
    obtain ⟨after, success, text⟩ :=
      ih (show next.len + (parts.map fun part => part.length + sep.length).sum < next.val.length by
        omega)
    refine ⟨after, ?_, ?_⟩
    · rw [implodeLoop, first, Option.bind_some, second, Option.bind_some, success]
    · rw [text, joined.text, appended.text, List.flatMap_cons]
      simp only [List.append_assoc]

theorem intercalate_cons (sep part : Str) (parts : List Str) :
    sep.intercalate (part :: parts) = part ++ parts.flatMap (sep ++ ·) := by
  induction parts generalizing part with
  | nil => rw [List.intercalate_singleton, List.flatMap_nil, List.append_nil]
  | cons next parts ih =>
    rw [List.intercalate_cons_cons, ih, List.flatMap_cons]
    simp only [List.append_assoc]

/-- The room that is reserved is enough for the parts with the separator between them. -/
theorem implode_spec (sep : Str) (parts : List Str) :
    ∃ after, implode sep parts = some after ∧ after.text = sep.intercalate parts := by
  cases parts with
  | nil => exact ⟨init 0, rfl, text_init 0⟩
  | cons part parts =>
    have counted : (parts.flatMap (sep ++ ·)).length =
        (parts.map fun part => part.length + sep.length).sum := by
      rw [List.length_flatMap]
      simp only [List.length_append, Nat.add_comm]
    unfold implode
    dsimp only
    rw [List.map_cons, List.sum_cons, intercalate_cons]
    split
    · have size (length : Nat) : (init length).val.length = length + 1 := List.length_replicate
      have none (length : Nat) : (init length).len = 0 := rfl
      obtain ⟨first, success, appended, room⟩ := appendUnsafe_spec
        (show (init (part.length + sep.length +
          (parts.map fun part => part.length + sep.length).sum - sep.length)).len + part.length <
            (init (part.length + sep.length +
              (parts.map fun part => part.length + sep.length).sum - sep.length)).val.length by
          rw [size, none]
          omega)
      have length := appended.len
      rw [size] at room
      rw [none] at length
      obtain ⟨after, looped, text⟩ := implodeLoop_spec sep parts
        (show first.len + (parts.map fun part => part.length + sep.length).sum < first.val.length by
          omega)
      refine ⟨after, ?_, ?_⟩
      · rw [success, Option.bind_some, looped]
      · rw [text, appended.text, text_init, List.nil_append]
    · refine ⟨init 0, rfl, ?_⟩
      rw [text_init]
      apply List.eq_nil_of_length_eq_zero _ |>.symm
      rw [List.length_append, counted]
      omega

end Object

end HandlebarsC.Strings
