import HandlebarsC.Foundation.Memory
import HandlebarsC.Strings.Edit
import HandlebarsC.Strings.Html
import HandlebarsC.Strings.Indent
import HandlebarsC.Strings.Replace

/-!
Strings by address, with their references: an operation on a string that has several
holders is to work on a copy.
-/

namespace HandlebarsC.Strings

open Memory

namespace Object

variable {string after : Object}

/-- `handlebars_string_addref`: the count stops at 255. -/
def addref (string : Object) : Object :=
  if string.refcount < 255 then { string with refcount := string.refcount + 1 } else string

/-- `handlebars_string_delref`: with the last reference the string is freed, and 255 stays. -/
def delref (string : Object) : Option Object :=
  if string.refcount = 255 then some string
  else if string.refcount ≤ 1 then none
  else some { string with refcount := string.refcount - 1 }

/-- `handlebars_string_copy_ctor` and the reference that `separate_string` takes to the copy. -/
def separated (string : Object) : Object := string.copyCtor.addref

@[simp] theorem text_addref (string : Object) : string.addref.text = string.text := by
  unfold addref
  split <;> rfl

@[simp] theorem hash_addref (string : Object) : string.addref.hash = string.hash := by
  unfold addref
  split <;> rfl

/-- Of a string with several holders a holder less is left. -/
theorem exists_delref (shared : 1 < string.refcount) :
    ∃ refcount, string.refcount ≤ refcount + 1 ∧
      string.delref = some { string with refcount := refcount } := by
  unfold delref
  split_ifs with immortal last
  · exact ⟨string.refcount, Nat.le_succ _, rfl⟩
  · omega
  · exact ⟨string.refcount - 1, by omega, rfl⟩

@[simp] theorem text_separated (string : Object) : string.separated.text = string.text := by
  rw [separated, text_addref, text_copyCtor]

@[simp] theorem hash_separated (string : Object) : string.separated.hash = string.hash := by
  rw [separated, hash_addref]
  rfl

theorem refcount_separated (string : Object) : string.separated.refcount = 1 := rfl

theorem terminated_separated (terminated : string.Terminated) : string.separated.Terminated := by
  change (string.val.take (string.len + 1))[string.len]? = some 0
  rw [List.getElem?_take_of_lt (Nat.lt_succ_self _)]
  exact terminated

end Object

/-- The strings that have been allocated. -/
abbrev Heap := Store Object

namespace Heap

/-- `separate_string` -/
def separate (heap : Heap) (string : Nat) : Option (Nat × Heap) :=
  (load heap string).map fun prev =>
    if prev.refcount > 1 then (heap.length, put (alloc heap prev.separated) string prev.delref)
    else (string, heap)

/-- A function of a string with one holder, at its address. -/
def update (heap : Heap) (string : Nat) (edit : Object → Option Object) : Option (Nat × Heap) :=
  ((load heap string).bind edit).map fun after => (string, put heap string (some after))

/-- An operation that starts with `separate_string`. What it does behind that is done to a
string with one holder. -/
def separateUpdate (heap : Heap) (string : Nat) (edit : Object → Option Object) :
    Option (Nat × Heap) :=
  (separate heap string).bind fun (string, heap) => update heap string edit

def delref (heap : Heap) (string : Nat) : Option Heap :=
  (load heap string).map fun object => put heap string object.delref

/-- `handlebars_string_extend`, which separates where the allocation is too small. -/
def extend (heap : Heap) (string len : Nat) : Option (Nat × Heap) :=
  (load heap string).bind fun object =>
    if len + 1 > object.val.length then separateUpdate heap string fun object => some (object.extend len)
    else some (string, heap)

/-- `handlebars_string_append` -/
def append (heap : Heap) (string : Nat) (str : Str) : Option (Nat × Heap) :=
  separateUpdate heap string fun object => object.append str

/-- `handlebars_string_compact`, which separates where the allocation is too large. -/
def compact (heap : Heap) (string : Nat) : Option (Nat × Heap) :=
  (load heap string).bind fun object =>
    if object.val.length > object.len + 1 then
      separateUpdate heap string fun object => some object.compact
    else some (string, heap)

/-- `handlebars_string_truncate` -/
def truncate (heap : Heap) (string start stop : Nat) : Option (Nat × Heap) :=
  separateUpdate heap string fun object => object.truncate start stop

/-- `handlebars_str_reduce`. `tok` points into the string it is given: into the copy there is
no distance from there. -/
def strReduce (heap : Heap) (string : Nat) (search replacement : Str) : Option (Nat × Heap) :=
  (load heap string).bind fun object =>
    if replacement.length > search.length || search.length = 0 || object.len = 0 then
      some (string, heap)
    else
      (separate heap string).bind fun (separated, heap) =>
        if separated = string then
          update heap separated fun object => Strings.strReduce object search replacement
        else none

/-- `handlebars_string_stripcslashes`. `source`, `target` and `end` point into the string it is
given; the length, the hash and the allocation are those of the separated one. -/
def stripcslashes (heap : Heap) (string : Nat) : Option (Nat × Heap) :=
  (load heap string).bind fun source =>
  let target := Parser.stripcslashes source.text
  (separate heap string).bind fun (separated, heap) =>
  (update heap string fun object => object.writeTarget target).bind fun (_, heap) =>
  (update heap separated fun object => object.setLen target.length).bind fun (string, heap) =>
  compact heap string

/-- `handlebars_string_vasprintf_append` of what is printed. -/
def vasprintfAppend (heap : Heap) (string : Nat) (printed : Str) : Option (Nat × Heap) :=
  (load heap string).bind fun object =>
  let slen := object.len
  separateUpdate heap string fun object =>
    if printed.length = 0 then some object
    else (object.extend (slen + printed.length)).printAt slen printed

/-- `handlebars_string_htmlspecialchars_append` -/
def htmlspecialcharsAppend (heap : Heap) (string : Nat) (str : Str) : Option (Nat × Heap) :=
  if str.length = 0 then some (string, heap)
  else separateUpdate heap string fun object => Strings.htmlspecialcharsAppend object str

/-- `handlebars_string_indent_append`, which gives up its input. There is no result where the
input is what it appends to. -/
def indentAppend (heap : Heap) (appendTo input : Nat) (indent : Str) : Option (Nat × Heap) :=
  (load heap input).bind fun text =>
  (separateUpdate heap appendTo fun object => Strings.indentAppend object text.text indent).bind
    fun (appendTo, heap) =>
  if appendTo = input then none
  else (delref heap input).map fun heap => (appendTo, heap)

/-- `handlebars_string_ltrim` -/
def ltrim (heap : Heap) (string : Nat) (what : Str) : Option (Nat × Heap) :=
  (load heap string).bind fun object =>
    if object.len = 0 then some (string, heap)
    else separateUpdate heap string fun object => object.ltrim what

/-- `handlebars_string_rtrim` -/
def rtrim (heap : Heap) (string : Nat) (what : Str) : Option (Nat × Heap) :=
  (load heap string).bind fun object =>
    if object.len = 0 then some (string, heap)
    else separateUpdate heap string fun object => object.rtrim what

variable {heap after : Heap} {string returned : Nat} {object result : Object}
  {edit : Object → Option Object}

theorem separate_alone (present : load heap string = some object) (alone : object.refcount ≤ 1) :
    separate heap string = some (string, heap) := by
  rw [separate, present, Option.map_some, if_neg (Nat.not_lt.mpr alone)]

theorem separate_shared (present : load heap string = some object) (shared : 1 < object.refcount) :
    separate heap string =
      some (heap.length, put (alloc heap object.separated) string object.delref) := by
  rw [separate, present, Option.map_some, if_pos shared]

theorem update_eq (present : load heap string = some object) (edit : Object → Option Object) :
    update heap string edit = (edit object).map fun after => (string, put heap string (some after)) := by
  rw [update, present, Option.bind_some]

theorem separateUpdate_alone (present : load heap string = some object)
    (alone : object.refcount ≤ 1) (edit : Object → Option Object) :
    separateUpdate heap string edit =
      (edit object).map fun after => (string, put heap string (some after)) := by
  rw [separateUpdate, separate_alone present alone, Option.bind_some]
  exact update_eq present edit

/-- What is behind an operation on a string with several holders: the copy has been edited, the
string has lost a reference, and nothing else has changed. -/
structure Separated (heap : Heap) (string : Nat) (before after : Object) (result : Heap) : Prop where
  copy : load result heap.length = some after
  original : load result string = before.delref
  others : ∀ other, other ≠ string → other ≠ heap.length → load result other = load heap other

/-- The separation, and an edit of the copy. -/
theorem separated_put (present : load heap string = some object) (copy result : Object) :
    Separated heap string object result
      (put (put (alloc heap copy) string object.delref) heap.length (some result)) := by
  have apart := Nat.ne_of_lt (load_lt present)
  have copied : load (put (alloc heap copy) string object.delref) heap.length = some copy :=
    (load_put_other apart.symm _ _).trans (load_alloc_self heap copy)
  refine ⟨load_put_self copied _, ?_, ?_⟩
  · rw [load_put_other apart, load_put_self (load_alloc present copy)]
  · intro other different behind
    rw [load_put_other behind, load_put_other different, load_alloc_other behind]

/-- Behind the separation of a string with several holders it is the copy that is edited. -/
theorem separateUpdate_copy (present : load heap string = some object)
    (shared : 1 < object.refcount) (edit : Object → Option Object) :
    separateUpdate heap string edit = (edit object.separated).map fun after =>
      (heap.length,
        put (put (alloc heap object.separated) string object.delref) heap.length (some after)) := by
  have apart := Nat.ne_of_lt (load_lt present)
  have copied : load (put (alloc heap object.separated) string object.delref) heap.length =
      some object.separated :=
    (load_put_other apart.symm _ _).trans (load_alloc_self heap _)
  rw [separateUpdate, separate_shared present shared, Option.bind_some]
  exact update_eq copied edit

theorem separateUpdate_shared (present : load heap string = some object)
    (shared : 1 < object.refcount) (edited : edit object.separated = some result) :
    ∃ after, separateUpdate heap string edit = some (heap.length, after) ∧
      Separated heap string object result after := by
  refine ⟨_, ?_, separated_put present object.separated result⟩
  rw [separateUpdate_copy present shared, edited, Option.map_some]

end Heap

/-- An operation that edits a string. -/
inductive Mutation where
  | append (str : Str)
  | extend (len : Nat)
  | compact
  | truncate (start stop : Nat)
  | strReduce (search replacement : Str)
  | stripcslashes
  | vasprintfAppend (printed : Str)
  | htmlspecialcharsAppend (str : Str)
  | indentAppend (input : Nat) (indent : Str)
  | ltrim (what : Str)
  | rtrim (what : Str)
  deriving DecidableEq, Repr

/-- The string an operation returns, and the strings behind it. -/
def Mutation.apply (heap : Heap) (string : Nat) : Mutation → Option (Nat × Heap)
  | .append str => heap.append string str
  | .extend len => heap.extend string len
  | .compact => heap.compact string
  | .truncate start stop => heap.truncate string start stop
  | .strReduce search replacement => heap.strReduce string search replacement
  | .stripcslashes => heap.stripcslashes string
  | .vasprintfAppend printed => heap.vasprintfAppend string printed
  | .htmlspecialcharsAppend str => heap.htmlspecialcharsAppend string str
  | .indentAppend input indent => heap.indentAppend string input indent
  | .ltrim what => heap.ltrim string what
  | .rtrim what => heap.rtrim string what

end HandlebarsC.Strings
