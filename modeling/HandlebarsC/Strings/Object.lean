import HandlebarsC.Core.Text
import HandlebarsC.Foundation.Buffer

/-!
`struct handlebars_string` of `handlebars_string.c`: what the functions do to a string
that has one holder.
-/

namespace HandlebarsC.Strings

/-- A string in its allocation. `val` is what was allocated for its characters; there is
room for a terminator behind them. -/
structure Object where
  refcount : Nat
  len : Nat
  hash : UInt32
  val : Str
  fits : len < val.length
  deriving DecidableEq, Repr

namespace Object

variable {string after : Object}

/-- `hbs_str_val` and `hbs_str_len` -/
def text (string : Object) : Str := string.val.take string.len

theorem length_text (string : Object) : string.text.length = string.len :=
  List.length_take_of_le (Nat.le_of_lt string.fits)

/-- `handlebars_string_init` -/
def init (length : Nat) : Object where
  refcount := 0
  len := 0
  hash := 0
  val := List.replicate (length + 1) 0
  fits := by simp

/-- `handlebars_string_ctor_ex` -/
def ctorEx (text : Str) (hash : UInt32) : Object where
  refcount := 0
  len := text.length
  hash := hash
  val := text ++ [0, 0]
  fits := by simp

/-- `handlebars_string_ctor` -/
def ctor (text : Str) : Object := ctorEx text 0

/-- `handlebars_string_copy_ctor`, which copies the characters and the terminator. -/
def copyCtor (string : Object) : Object where
  refcount := 0
  len := string.len
  hash := string.hash
  val := string.val.take (string.len + 1)
  fits := by
    rw [List.length_take]
    exact Nat.lt_min.mpr ⟨Nat.lt_succ_self _, string.fits⟩

/-- `handlebars_string_extend`. What the new bytes hold is never read. -/
def extend (string : Object) (len : Nat) : Object :=
  if len + 1 > string.val.length then
    { string with
      val := string.val ++ List.replicate (len + 1 - string.val.length) 0
      fits := by
        rw [List.length_append]
        exact Nat.lt_add_right _ string.fits }
  else string

/-- `handlebars_string_append_unsafe`. There is no result where it writes behind the
allocation. -/
def appendUnsafe (string : Object) (str : Str) : Option Object :=
  match written : Buffer.write string.val string.len (str ++ [0]) with
  | none => none
  | some val =>
    some
      { string with
        len := string.len + str.length
        hash := 0
        val := val
        fits := by
          have fits := (Buffer.write_some written).1
          rw [List.length_append, List.length_singleton] at fits
          rw [Buffer.length_write written]
          omega }

/-- `handlebars_string_append` -/
def append (string : Object) (str : Str) : Option Object :=
  (string.extend (string.len + str.length)).appendUnsafe str

/-- `handlebars_string_compact` -/
def compact (string : Object) : Object :=
  if string.val.length > string.len + 1 then
    { string with
      val := string.val.take (string.len + 1)
      fits := by
        rw [List.length_take]
        exact Nat.lt_min.mpr ⟨Nat.lt_succ_self _, string.fits⟩ }
  else string

/-- The string with other characters and another length, which must leave room for the
terminator. -/
def resized (string : Object) (val : Str) (len : Nat) : Option Object :=
  if fits : len < val.length then some { string with len := len, val := val, fits := fits } else none

@[simp] theorem text_init (length : Nat) : (init length).text = [] := List.take_zero

@[simp] theorem text_ctorEx (text : Str) (hash : UInt32) : (ctorEx text hash).text = text :=
  List.take_left

@[simp] theorem text_ctor (text : Str) : (ctor text).text = text := text_ctorEx text 0

@[simp] theorem text_copyCtor (string : Object) : string.copyCtor.text = string.text := by
  unfold copyCtor text
  rw [List.take_take, Nat.min_eq_left (Nat.le_succ _)]

@[simp] theorem len_extend (string : Object) (len : Nat) : (string.extend len).len = string.len := by
  unfold extend
  split <;> rfl

@[simp] theorem refcount_extend (string : Object) (len : Nat) :
    (string.extend len).refcount = string.refcount := by
  unfold extend
  split <;> rfl

@[simp] theorem hash_extend (string : Object) (len : Nat) :
    (string.extend len).hash = string.hash := by
  unfold extend
  split <;> rfl

@[simp] theorem text_extend (string : Object) (len : Nat) :
    (string.extend len).text = string.text := by
  unfold extend
  split
  · exact List.take_append_of_le_length (Nat.le_of_lt string.fits)
  · rfl

/-- The allocation grows to what was asked for, and does not shrink. -/
theorem room_extend (string : Object) (len : Nat) :
    (string.extend len).val.length = max string.val.length (len + 1) := by
  unfold extend
  split
  · rw [List.length_append, List.length_replicate]
    omega
  · omega

@[simp] theorem len_compact (string : Object) : string.compact.len = string.len := by
  unfold compact
  split <;> rfl

@[simp] theorem refcount_compact (string : Object) : string.compact.refcount = string.refcount := by
  unfold compact
  split <;> rfl

@[simp] theorem hash_compact (string : Object) : string.compact.hash = string.hash := by
  unfold compact
  split <;> rfl

@[simp] theorem text_compact (string : Object) : string.compact.text = string.text := by
  unfold compact
  split
  · exact (List.take_take ..).trans (by rw [Nat.min_eq_left (Nat.le_succ _), text])
  · rfl

/-- What an append leaves behind: the text longer by what was appended, no hash, and the
rest of the string as it was. -/
structure Appended (string : Object) (str : Str) (after : Object) : Prop where
  text : after.text = string.text ++ str
  len : after.len = string.len + str.length
  hash : after.hash = 0
  refcount : after.refcount = string.refcount

theorem appendUnsafe_spec (room : string.len + str.length < string.val.length) :
    ∃ after, string.appendUnsafe str = some after ∧ Appended string str after ∧
      after.val.length = string.val.length := by
  have fits : string.len + (str ++ [0]).length ≤ string.val.length := by
    rw [List.length_append, List.length_singleton]
    omega
  obtain ⟨written, success⟩ := Buffer.exists_write fits
  unfold appendUnsafe
  split
  · rename_i failed
    rw [success] at failed
    cases failed
  · rename_i val written
    refine ⟨_, rfl, ⟨?_, rfl, rfl, rfl⟩, Buffer.length_write written⟩
    have front := Buffer.take_write_end written
    rw [List.length_append, List.length_singleton] at front
    calc
      val.take (string.len + str.length)
        = (val.take (string.len + (str.length + 1))).take (string.len + str.length) := by
          rw [List.take_take, Nat.min_eq_left (by omega)]
      _ = (string.val.take string.len ++ str ++ [0]).take (string.len + str.length) := by
          rw [front, List.append_assoc]
      _ = string.text ++ str := by
          apply List.take_left'
          rw [List.length_append, List.length_take_of_le (Nat.le_of_lt string.fits)]

theorem append_spec (string : Object) (str : Str) :
    ∃ after, string.append str = some after ∧ Appended string str after ∧
      after.val.length = max string.val.length (string.len + str.length + 1) := by
  have room : (string.extend (string.len + str.length)).len + str.length <
      (string.extend (string.len + str.length)).val.length := by
    rw [len_extend, room_extend]
    omega
  obtain ⟨after, success, appended, size⟩ := appendUnsafe_spec room
  refine ⟨after, success, ⟨?_, ?_, appended.hash, ?_⟩, size.trans (room_extend ..)⟩
  · rw [appended.text, text_extend]
  · rw [appended.len, len_extend]
  · rw [appended.refcount, refcount_extend]

end Object

end HandlebarsC.Strings
