import HandlebarsC.Strings.Heap

/-!
An operation on a string with several holders, compared with the same operation on a string
of its own.
-/

namespace HandlebarsC.Strings

open Memory

/-- The references that an operation on a string is given to it. -/
def Mutation.uses (string : Nat) : Mutation → Nat
  | .indentAppend input _ => if input = string then 2 else 1
  | _ => 1

/-- `handlebars_str_reduce` goes on to look for what it replaces. -/
def Mutation.reduces (text : Str) : Mutation → Bool
  | .strReduce search replacement =>
    replacement.length ≤ search.length && search.length != 0 && text.length != 0
  | _ => false

/-- `handlebars_string_stripcslashes` of a text that has an escape. -/
def Mutation.strips (text : Str) : Mutation → Bool
  | .stripcslashes => Parser.stripcslashes text != text
  | _ => false

/-- What is promised of an operation on a string with several holders: it returns the text that
it returns for any other string with that text and one holder, and the string has the text and
the length it had. -/
def Isolated (heap : Heap) (shared : Nat) (mutation : Mutation) : Prop :=
  ∀ string alone, load heap shared = some string → alone.refcount ≤ 1 → alone.Terminated →
    alone.text = string.text →
    ∀ returned after result, mutation.apply (alloc heap alone) heap.length = some (returned, after) →
      load after returned = some result →
    ∃ returnedHere afterHere resultHere left,
      mutation.apply heap shared = some (returnedHere, afterHere) ∧
      load afterHere returnedHere = some resultHere ∧ resultHere.text = result.text ∧
      load afterHere shared = some left ∧ left.text = string.text ∧ left.len = string.len

/-- `handlebars_string_ltrim` or `handlebars_string_rtrim` -/
def Mutation.trims : Mutation → Bool
  | .ltrim _ | .rtrim _ => true
  | _ => false

/-- An operation that separates the strings with a text before it edits them, or leaves them
alone, and whose result is determined by the text. The hash is reset, or stays: with the text,
but for a trim. -/
structure Separates (operation : Heap → Nat → Option (Nat × Heap)) (trims : Bool) (text : Str)
    (edit : Object → Option Object) (result : Option Str) : Prop where
  apply : ∀ (heap : Heap) string object, load heap string = some object → object.text = text →
    operation heap string = Heap.separateUpdate heap string edit ∨
      operation heap string = some (string, heap) ∧ edit object = some object
  defined : ∀ object : Object, object.Terminated → object.text = text → ∀ out, result = some out →
    ∃ after, edit object = some after
  edited : ∀ object after : Object, object.text = text → edit object = some after →
    result = some after.text
  hash : ∀ object after : Object, object.text = text → edit object = some after →
    after.hash = 0 ∧ trims = false ∨
      after.hash = object.hash ∧ (trims = true ∨ after.text = object.text)

variable {heap after : Heap} {string returned : Nat} {object : Object} {text out : Str}
  {result : Option Str} {mutation : Mutation} {edit : Object → Option Object} {trims : Bool}
  {operation : Heap → Nat → Option (Nat × Heap)}

/-- The operation on a string with one holder is its edit. -/
theorem Separates.alone (separates : Separates operation trims object.text edit result)
    (present : load heap string = some object) (single : object.refcount ≤ 1) :
    operation heap string = (edit object).map fun after => (string, put heap string (some after)) := by
  rcases separates.apply heap string object present rfl with edits | ⟨stays, same⟩
  · rw [edits, Heap.separateUpdate_alone present single]
  · rw [stays, same, Option.map_some, put_load present]

/-- The operation on a string with several holders edits a copy, or nothing. -/
theorem Separates.shared (separates : Separates operation trims object.text edit (some out))
    (present : load heap string = some object) (several : 1 < object.refcount)
    (terminated : object.Terminated) :
    ∃ returned after final, operation heap string = some (returned, after) ∧ final.text = out ∧
      (Heap.Separated heap string object final after ∧ returned = heap.length ∨
        after = heap ∧ returned = string ∧ final = object) := by
  rcases separates.apply heap string object present rfl with edits | ⟨stays, same⟩
  · obtain ⟨final, edited⟩ := separates.defined object.separated
      (Object.terminated_separated terminated) object.text_separated out rfl
    obtain ⟨after, success, separated⟩ := Heap.separateUpdate_shared present several edited
    have text := separates.edited _ _ object.text_separated edited
    exact ⟨_, after, final, edits.trans success, (Option.some.inj text).symm, .inl ⟨separated, rfl⟩⟩
  · have text := separates.edited _ _ rfl same
    exact ⟨string, heap, object, stays, (Option.some.inj text).symm, .inr ⟨rfl, rfl, rfl⟩⟩

/-! ### The operations -/

/-- An edit whose result is determined, behind a separation. -/
theorem edit_separates
    (spec : ∀ object : Object, object.text = text →
      ∃ after, edit object = some after ∧ after.text = out ∧ after.hash = 0) :
    Separates (fun heap string => heap.separateUpdate string edit) false text edit (some out) where
  apply heap string object present same := .inl rfl
  defined object terminated same out result := by
    obtain ⟨after, success, -⟩ := spec object same
    exact ⟨after, success⟩
  edited object after same success := by
    obtain ⟨_, expected, written, -⟩ := spec object same
    cases success.symm.trans expected
    rw [written]
  hash object after same success := by
    obtain ⟨_, expected, -, reset⟩ := spec object same
    cases success.symm.trans expected
    exact .inl ⟨reset, rfl⟩

/-- An edit of no more than the allocation, where there is need of it. -/
theorem resize_separates (text : Str) (resize : Object → Object) (needed : Object → Prop)
    [DecidablePred needed] (texts : ∀ object, (resize object).text = object.text)
    (hashes : ∀ object, (resize object).hash = object.hash)
    (unneeded : ∀ object, ¬needed object → resize object = object) :
    Separates (fun heap string => (load heap string).bind fun object =>
        if needed object then heap.separateUpdate string fun object => some (resize object)
        else some (string, heap))
      false text (fun object => some (resize object)) (some text) where
  apply heap string object present same := by
    rw [present, Option.bind_some]
    split
    · exact .inl rfl
    · rename_i enough
      exact .inr ⟨rfl, congrArg some (unneeded object enough)⟩
  defined object terminated same out result := ⟨_, rfl⟩
  edited object after same success := by
    cases success
    rw [texts, same]
  hash object after same success := by
    cases success
    exact .inr ⟨hashes object, .inr (texts object)⟩

theorem compact_separates (text : Str) :
    Separates (fun heap string => heap.compact string) false text
      (fun object => some object.compact) (some text) :=
  resize_separates text Object.compact (fun object => object.val.length > object.len + 1)
    Object.text_compact Object.hash_compact fun _ enough => if_neg enough

/-- A trim of a text that is not empty. -/
theorem trim_separates (text : Str) (trim : Object → Option Object) (cut : Str → Str)
    (empty : ∀ object : Object, object.len = 0 → trim object = some object)
    (defined : ∀ object : Object, object.Terminated → ∃ after, trim object = some after)
    (spec : ∀ object after : Object, trim object = some after →
      after.text = cut object.text ∧ after.hash = object.hash) :
    Separates (fun heap string => (load heap string).bind fun object =>
        if object.len = 0 then some (string, heap) else heap.separateUpdate string trim)
      true text trim (some (cut text)) where
  apply heap string object present same := by
    rw [present, Option.bind_some]
    split
    · rename_i nothing
      exact .inr ⟨rfl, empty object nothing⟩
    · exact .inl rfl
  defined object terminated same out result := defined object terminated
  edited object after same success := by
    rw [(spec object after success).1, same]
  hash object after same success := .inr ⟨(spec object after success).2, .inl rfl⟩

theorem ltrim_separates (text what : Str) :
    Separates (fun heap string => heap.ltrim string what) true text
      (fun object => object.ltrim what) (some (text.dropWhile (Object.isTrimmed what))) := by
  apply trim_separates text _ (List.dropWhile (Object.isTrimmed what))
  · intro object nothing
    exact if_pos nothing
  · intro object terminated
    exact Object.exists_ltrim terminated what
  · intro object after success
    obtain ⟨text, hash, -⟩ := Object.ltrim_some success
    exact ⟨text, hash⟩

theorem rtrim_separates (text what : Str) :
    Separates (fun heap string => heap.rtrim string what) true text
      (fun object => object.rtrim what) (some (text.rdropWhile what.contains)) := by
  apply trim_separates text _ (List.rdropWhile what.contains)
  · intro object nothing
    exact if_pos nothing
  · intro object terminated
    obtain ⟨after, success, -⟩ := object.rtrim_spec what
    exact ⟨after, success⟩
  · intro object after success
    obtain ⟨_, expected, text, hash, -⟩ := object.rtrim_spec what
    cases success.symm.trans expected
    exact ⟨text, hash⟩

/-- An operation that leaves every string with a text alone. -/
theorem skip_separates (skips : ∀ (heap : Heap) string object, load heap string = some object →
      object.text = text → operation heap string = some (string, heap)) :
    Separates operation false text some (some text) where
  apply heap string object present same := .inr ⟨skips heap string object present same, rfl⟩
  defined object terminated same out result := ⟨object, rfl⟩
  edited object after same success := by
    cases success
    rw [same]
  hash object after same success := by
    cases success
    exact .inr ⟨rfl, .inr rfl⟩

/-- An edit that is not defined. -/
theorem stuck_separates (stuck : ∀ object : Object, object.text = text → edit object = none) :
    Separates (fun heap string => heap.separateUpdate string edit) false text edit none where
  apply heap string object present same := .inl rfl
  defined object terminated same out result := nomatch result
  edited object after same success := by
    rw [stuck object same] at success
    cases success
  hash object after same success := by
    rw [stuck object same] at success
    cases success

theorem Separates.congr {other : Heap → Nat → Option (Nat × Heap)}
    (separates : Separates operation trims text edit result)
    (same : ∀ (heap : Heap) string object, load heap string = some object → object.text = text →
      other heap string = operation heap string) :
    Separates other trims text edit result where
  apply heap string object present here := by
    rw [same heap string object present here]
    exact separates.apply heap string object present here
  defined := separates.defined
  edited := separates.edited
  hash := separates.hash

theorem append_edit (text str : Str) (object : Object) (same : object.text = text) :
    ∃ after, object.append str = some after ∧ after.text = text ++ str ∧ after.hash = 0 := by
  obtain ⟨after, success, appended, -⟩ := object.append_spec str
  exact ⟨after, success, appended.text.trans (congrArg (· ++ str) same), appended.hash⟩

theorem appendUnsafe_hash (success : object.appendUnsafe str = some final) : final.hash = 0 := by
  unfold Object.appendUnsafe at success
  split at success
  · cases success
  · cases success
    rfl

theorem htmlspecialcharsCopy_hash (reset : object.hash = 0)
    (success : htmlspecialcharsCopy object str = some final) : final.hash = 0 := by
  induction str generalizing object with
  | nil =>
    cases success
    exact reset
  | cons char rest ih =>
    rw [htmlspecialcharsCopy] at success
    split at success
    · obtain ⟨next, appended, success⟩ := Option.bind_eq_some_iff.mp success
      exact ih (appendUnsafe_hash appended) success
    · obtain ⟨next, appended, success⟩ := Option.bind_eq_some_iff.mp success
      exact ih (appendUnsafe_hash appended) success

theorem append_hash (success : object.append str = some final) : final.hash = 0 :=
  appendUnsafe_hash success

theorem htmlspecialcharsAppend_edit (text : Str) (nonempty : str ≠ []) (object : Object)
    (same : object.text = text) :
    ∃ after, htmlspecialcharsAppend object str = some after ∧
      after.text = text ++ htmlspecialchars str ∧ after.hash = 0 := by
  have some : str.length ≠ 0 := fun zero => nonempty (List.length_eq_zero_iff.mp zero)
  obtain ⟨after, success, written, -⟩ := htmlspecialcharsAppend_spec object str
  refine ⟨after, success, written.trans (congrArg (· ++ htmlspecialchars str) same), ?_⟩
  unfold htmlspecialcharsAppend at success
  dsimp only at success
  rw [if_neg some] at success
  split at success
  · exact append_hash success
  · obtain ⟨char, rest, rfl⟩ := List.exists_cons_of_ne_nil nonempty
    rw [htmlspecialcharsCopy] at success
    split at success
    · obtain ⟨next, appended, success⟩ := Option.bind_eq_some_iff.mp success
      exact htmlspecialcharsCopy_hash (appendUnsafe_hash appended) success
    · obtain ⟨next, appended, success⟩ := Option.bind_eq_some_iff.mp success
      exact htmlspecialcharsCopy_hash (appendUnsafe_hash appended) success

theorem indentLoop_hash (reset : object.hash = 0)
    (success : indentLoop indent object str = some final) : final.hash = 0 := by
  induction str generalizing object with
  | nil =>
    cases success
    exact reset
  | cons char rest ih =>
    rw [indentLoop] at success
    split at success
    · obtain ⟨next, -, success⟩ := Option.bind_eq_some_iff.mp success
      obtain ⟨line, appended, success⟩ := Option.bind_eq_some_iff.mp success
      exact ih (append_hash appended) success
    · obtain ⟨next, appended, success⟩ := Option.bind_eq_some_iff.mp success
      exact ih (append_hash appended) success

theorem indentAppend_hash (success : indentAppend object str indent = some final) :
    final.hash = 0 := by
  obtain ⟨last, -, success⟩ := Option.bind_eq_some_iff.mp success
  obtain ⟨first, appended, success⟩ := Option.bind_eq_some_iff.mp success
  obtain ⟨looped, loop, success⟩ := Option.bind_eq_some_iff.mp success
  split at success
  · exact append_hash success
  · cases success
    exact indentLoop_hash (append_hash appended) loop

/-- What is done to the string that an indented text is appended to. -/
theorem indentAppend_separates (text str indent : Str) :
    ∃ result, Separates
      (fun heap string => heap.separateUpdate string fun object => indentAppend object str indent)
      false text (fun object => indentAppend object str indent) result := by
  by_cases empty : str = []
  · refine ⟨_, stuck_separates fun object same => ?_⟩
    rw [empty]
    rfl
  · refine ⟨some (text ++ Lines.indentLines 10 indent str), edit_separates fun object same => ?_⟩
    obtain ⟨after, success, written⟩ := indentAppend_spec object empty indent
    exact ⟨after, success, written.trans (congrArg (· ++ _) same), indentAppend_hash success⟩

theorem truncate_separates (text : Str) (start stop : Nat) :
    ∃ result, Separates (fun heap string => heap.truncate string start stop) false
      text (fun object => object.truncate start stop) result := by
  by_cases inside : start ≤ min stop text.length
  · refine ⟨some ((text.take stop).drop start), edit_separates fun object same => ?_⟩
    have room : start ≤ min stop object.len := by rwa [← object.length_text, same]
    obtain ⟨after, success, written, reset, -⟩ := object.truncate_spec room
    exact ⟨after, success, by rw [written, same], reset⟩
  · refine ⟨_, stuck_separates fun object same => ?_⟩
    have outside : min stop object.len < start := by
      rw [← object.length_text, same]
      exact Nat.lt_of_not_le inside
    exact Object.truncate_outside outside

/-- A reduction that does not go on to its search gives its string back. -/
theorem strReduce_separates {search replacement : Str}
    (quiet : (Mutation.strReduce search replacement).reduces text = false) :
    Separates (fun heap string => heap.strReduce string search replacement) false text some
      (some text) := by
  refine skip_separates fun heap string object present same => ?_
  have skips : (replacement.length > search.length || search.length = 0 || object.len = 0 : Bool) =
      true := by
    rw [← object.length_text, same]
    simp only [Mutation.reduces, Bool.and_eq_false_iff, decide_eq_false_iff_not,
      bne_eq_false_iff_eq] at quiet
    simp only [Bool.or_eq_true, decide_eq_true_eq]
    omega
  rw [Heap.strReduce, present, Option.bind_some, if_pos skips]

/-- What is printed is appended at the length that the string had before it was separated. -/
theorem vasprintfAppend_separates (text printed : Str) :
    ∃ edit result, Separates (fun heap string => heap.vasprintfAppend string printed) false text edit
      result := by
  have slen (heap : Heap) (string : Nat) (object : Object)
      (present : load heap string = some object) (same : object.text = text) :
      heap.vasprintfAppend string printed = heap.separateUpdate string fun object =>
        if printed.length = 0 then some object
        else (object.extend (text.length + printed.length)).printAt text.length printed := by
    rw [Heap.vasprintfAppend, present, Option.bind_some, ← object.length_text, same]
  by_cases nothing : printed.length = 0
  · refine ⟨_, _, (resize_separates text id (fun _ => True) (fun _ => rfl) (fun _ => rfl)
      (fun _ needed => absurd trivial needed)).congr fun heap string object present same => ?_⟩
    rw [present, Option.bind_some, if_pos trivial]
    refine (slen heap string object present same).trans ?_
    simp only [nothing, if_true, id]
  · refine ⟨_, some (text ++ printed), (edit_separates fun object same => ?_).congr slen⟩
    obtain ⟨after, success, written⟩ := append_edit text printed object same
    refine ⟨after, ?_, written⟩
    have size : (object.extend (text.length + printed.length)).len = text.length := by
      rw [Object.len_extend, ← object.length_text, same]
    have printed_at := (object.extend (text.length + printed.length)).printAt_len printed
    rw [size] at printed_at
    rw [if_neg nothing, printed_at, ← success, Object.append, ← object.length_text, same]

theorem htmlspecialcharsAppend_separates (text str : Str) :
    ∃ edit result, Separates (fun heap string => heap.htmlspecialcharsAppend string str) false text
      edit result := by
  by_cases nothing : str.length = 0
  · refine ⟨_, _, skip_separates fun heap string object present same => ?_⟩
    exact if_pos nothing
  · have nonempty : str ≠ [] := fun empty => nothing (congrArg List.length empty)
    refine ⟨_, _, (edit_separates (htmlspecialcharsAppend_edit text nonempty)).congr
      fun heap string object present same => ?_⟩
    exact if_neg nothing

/-- The operations but for three: a reduction that goes on to its search, the stripping of
slashes, and an indent, which gives up a string behind its edit. -/
theorem mutation_separates (mutation : Mutation) (text : Str) (quiet : mutation.reduces text = false)
    (slashes : mutation ≠ .stripcslashes) (indents : ∀ input indent, mutation ≠ .indentAppend input indent) :
    ∃ edit result, Separates (fun heap string => mutation.apply heap string) mutation.trims text edit
      result := by
  cases mutation with
  | append str =>
    exact ⟨_, _, edit_separates (append_edit text str)⟩
  | extend len =>
    refine ⟨_, _, resize_separates text (fun object => object.extend len) (fun object => len + 1 > object.val.length)
      (fun object => object.text_extend len) (fun object => object.hash_extend len) ?_⟩
    intro object enough
    exact if_neg enough
  | compact => exact ⟨_, _, compact_separates text⟩
  | truncate start stop => exact ⟨_, truncate_separates text start stop⟩
  | strReduce search replacement => exact ⟨_, _, strReduce_separates quiet⟩
  | stripcslashes => exact absurd rfl slashes
  | vasprintfAppend printed => exact vasprintfAppend_separates text printed
  | htmlspecialcharsAppend str => exact htmlspecialcharsAppend_separates text str
  | indentAppend input indent => exact absurd rfl (indents input indent)
  | ltrim what => exact ⟨_, _, ltrim_separates text what⟩
  | rtrim what => exact ⟨_, _, rtrim_separates text what⟩

/-! ### Slashes -/

/-- The end of `handlebars_string_stripcslashes`, on a string with one holder. -/
theorem setLen_compact (present : load heap string = some object) (single : object.refcount ≤ 1)
    (room : nlen ≤ object.len) :
    ∃ final, ((heap.update string fun object => object.setLen nlen).bind
        fun (string, heap) => heap.compact string) =
          some (string, put (put heap string (some final)) string (some final.compact)) ∧
      final.text = object.val.take nlen ∧ final.hash = 0 := by
  obtain ⟨final, cut, text, hash, refcount⟩ := Object.setLen_spec room
  refine ⟨final, ?_, text, hash⟩
  rw [Heap.update_eq present, cut, Option.map_some, Option.bind_some]
  exact (compact_separates final.text).alone (load_put_self present _) (refcount ▸ single)

/-- Of a string with one holder the slashes are stripped. -/
theorem stripcslashes_alone (present : load heap string = some object)
    (single : object.refcount ≤ 1) :
    ∃ after final, heap.stripcslashes string = some (string, after) ∧
      load after string = some final ∧ final.text = Parser.stripcslashes object.text ∧
      final.hash = 0 ∧ ∀ other, other ≠ string → load after other = load heap other := by
  have shorter : (Parser.stripcslashes object.text).length ≤ object.len :=
    object.length_text ▸ Parser.length_stripcslashes object.text
  obtain ⟨written, success, front, -, len, -, refcount⟩ := Object.writeTarget_spec shorter
  have held : load (put heap string (some written)) string = some written := load_put_self present _
  obtain ⟨final, finished, text, hash⟩ :=
    setLen_compact held (refcount ▸ single) (len.symm ▸ shorter)
  refine ⟨_, final.compact, ?_, load_put_self (load_put_self held (some final)) _,
    ?_, ?_, ?_⟩
  · rw [Heap.stripcslashes, present, Option.bind_some]
    dsimp only
    rw [Heap.separate_alone present single, Option.bind_some]
    dsimp only
    rw [Heap.update_eq present, success, Option.map_some, Option.bind_some]
    exact finished
  · rw [Object.text_compact, text, front]
  · rw [Object.hash_compact, hash]
  · intro other apart
    rw [load_put_other apart, load_put_other apart, load_put_other apart]

/-- Of a string with several holders the slashes are stripped where the others see it, and the
copy is cut to the length that the result would have. -/
theorem stripcslashes_shared (present : load heap string = some object)
    (several : 1 < object.refcount) :
    ∃ after final left, heap.stripcslashes string = some (heap.length, after) ∧
      load after heap.length = some final ∧
      final.text = object.text.take (Parser.stripcslashes object.text).length ∧ final.hash = 0 ∧
      load after string = some left ∧
      left.text = (Parser.stripcslashes object.text ++
        0 :: object.val.drop ((Parser.stripcslashes object.text).length + 1)).take object.len ∧
      left.len = object.len ∧ left.hash = object.hash ∧
      ∀ other, other ≠ string → other ≠ heap.length → load after other = load heap other := by
  have apart := Nat.ne_of_lt (load_lt present)
  have shorter : (Parser.stripcslashes object.text).length ≤ object.len :=
    object.length_text ▸ Parser.length_stripcslashes object.text
  obtain ⟨refcount, -, released⟩ := Object.exists_delref several
  have original : load (put (alloc heap object.separated) string object.delref) string =
      some { object with refcount := refcount } :=
    (load_put_self (load_alloc present _) _).trans released
  obtain ⟨left, success, -, text, len, hash, -⟩ :=
    Object.writeTarget_spec (show _ ≤ ({ object with refcount := refcount } : Object).len from shorter)
  have copied : load (put (put (alloc heap object.separated) string object.delref) string (some left))
      heap.length = some object.separated := by
    rw [load_put_other apart.symm, load_put_other apart.symm, load_alloc_self]
  obtain ⟨final, finished, cut, reset⟩ :=
    setLen_compact copied (Nat.le_of_eq object.refcount_separated) (show _ ≤ object.len from shorter)
  refine ⟨_, final.compact, left, ?_, load_put_self (load_put_self copied (some final)) _, ?_, ?_, ?_,
    text, len, hash, ?_⟩
  · rw [Heap.stripcslashes, present, Option.bind_some]
    dsimp only
    rw [Heap.separate_shared present several, Option.bind_some]
    dsimp only
    rw [Heap.update_eq original, success, Option.map_some, Option.bind_some]
    exact finished
  · rw [Object.text_compact, cut]
    change (object.val.take (object.len + 1)).take _ = (object.val.take object.len).take _
    rw [List.take_take, List.take_take, Nat.min_eq_left shorter, Nat.min_eq_left (by omega)]
  · rw [Object.hash_compact, reset]
  · rw [load_put_other apart, load_put_other apart, load_put_self original]
  · intro other different behind
    rw [load_put_other behind, load_put_other behind, load_put_other different,
      load_put_other different, load_alloc_other behind]

/-! ### The other holders -/

/-- The three ways in which the string that is returned and the one that is shared come about
all leave the promise kept. -/
theorem isolated_of_separates
    (separates : ∃ edit result, Separates (fun heap string => mutation.apply heap string) trims
      object.text edit result)
    (present : load heap string = some object) (several : 1 < object.refcount)
    (terminated : object.Terminated) : Isolated heap string mutation := by
  rintro held alone loaded single ended same returned after final ran found
  obtain rfl := Option.some.inj (present.symm.trans loaded)
  obtain ⟨edit, result, separates⟩ := separates
  rw [← same] at separates
  have edits := separates.alone (load_alloc_self heap alone) single
  obtain ⟨edited, success, written⟩ := Option.map_eq_some_iff.mp (edits.symm.trans ran)
  obtain ⟨rfl, rfl⟩ := Prod.mk.inj written
  rw [load_put_self (load_alloc_self heap alone)] at found
  obtain rfl := Option.some.inj found
  have text := separates.edited alone edited rfl success
  subst text
  rw [same] at separates
  obtain ⟨returned, after, there, ran, text, ⟨separated, rfl⟩ | ⟨rfl, rfl, rfl⟩⟩ :=
    separates.shared present several terminated
  · obtain ⟨refcount, -, left⟩ := Object.exists_delref several
    exact ⟨_, after, there, _, ran, separated.copy, text, separated.original.trans left, rfl, rfl⟩
  · exact ⟨_, _, there, there, ran, present, text, present, rfl, rfl⟩

theorem Mutation.uses_pos (string : Nat) (mutation : Mutation) : 0 < mutation.uses string := by
  unfold uses
  split
  · split
    · exact Nat.two_pos
    · exact Nat.one_pos
  · exact Nat.one_pos

/-- Every text is that of a string with one holder. -/
theorem exists_alone (text : Str) :
    ∃ alone : Object, alone.refcount ≤ 1 ∧ alone.Terminated ∧ alone.text = text := by
  refine ⟨.ctor text, Nat.zero_le 1, ?_, Object.text_ctor text⟩
  change (text ++ [0, 0])[text.length]? = some 0
  rw [List.getElem?_append_right (Nat.le_refl _), Nat.sub_self]
  rfl

/-- The input of an indent may be the string itself: it has the text until it is given up. -/
theorem isolated_indentAppend (present : load heap string = some object)
    (terminated : object.Terminated)
    (others : (Mutation.indentAppend input indent).uses string < object.refcount) :
    Isolated heap string (.indentAppend input indent) := by
  rintro held alone loaded single ended same returned after final ran found
  obtain rfl := Option.some.inj (present.symm.trans loaded)
  have several : 1 < object.refcount :=
    Nat.lt_of_le_of_lt (Mutation.uses_pos string (.indentAppend input indent)) others
  obtain ⟨text, read, ran⟩ := Option.bind_eq_some_iff.mp ran
  obtain ⟨result, separates⟩ := indentAppend_separates object.text text.text indent
  obtain ⟨⟨appendTo, behind⟩, edits, ran⟩ := Option.bind_eq_some_iff.mp ran
  rw [← same] at separates
  obtain ⟨edited, success, written⟩ := Option.map_eq_some_iff.mp
    ((separates.alone (load_alloc_self heap alone) single).symm.trans edits)
  obtain ⟨rfl, rfl⟩ := Prod.mk.inj written
  dsimp only at ran
  split at ran
  · cases ran
  · rename_i apart
    have apart : input ≠ heap.length := Ne.symm apart
    rw [load_alloc_other apart] at read
    obtain ⟨behind, given, finished⟩ := Option.map_eq_some_iff.mp ran
    obtain ⟨_, -, rfl⟩ := Option.map_eq_some_iff.mp given
    obtain ⟨rfl, rfl⟩ := Prod.mk.inj finished
    rw [load_put_other apart.symm, load_put_self (load_alloc_self heap alone)] at found
    obtain rfl := Option.some.inj found
    have outcome := separates.edited alone edited rfl success
    rw [same] at separates
    obtain ⟨copy, copied⟩ := separates.defined object.separated
      (Object.terminated_separated terminated) object.text_separated _ outcome
    have sameText : copy.text = edited.text := Option.some.inj
      ((separates.edited _ _ object.text_separated copied).symm.trans outcome)
    obtain ⟨after, separated, frame⟩ := @Heap.separateUpdate_shared _ _ _ _
      (fun object => Strings.indentAppend object text.text indent) present several copied
    obtain ⟨refcount, few, released⟩ := Object.exists_delref several
    have runs (given : Object) (there : load after input = some given) :
        heap.indentAppend string input indent =
          some (heap.length, put after input given.delref) := by
      rw [Heap.indentAppend, read, Option.bind_some, separated, Option.bind_some]
      dsimp only
      rw [if_neg apart.symm, Heap.delref, there, Option.map_some, Option.map_some]
    by_cases itself : input = string
    · subst itself
      have left := frame.original.trans released
      have more : 1 < ({ object with refcount := refcount } : Object).refcount := by
        have two : (Mutation.indentAppend input indent).uses input = 2 := if_pos rfl
        change 1 < refcount
        omega
      obtain ⟨last, -, again⟩ := Object.exists_delref more
      refine ⟨_, _, copy, _, runs _ left, ?_, sameText, (load_put_self left _).trans again, rfl, rfl⟩
      rw [load_put_other apart.symm, frame.copy]
    · have other := (frame.others input itself apart).trans read
      refine ⟨_, _, copy, { object with refcount := refcount }, runs _ other, ?_, sameText, ?_,
        rfl, rfl⟩
      · rw [load_put_other apart.symm, frame.copy]
      · exact (load_put_other (Ne.symm itself) _ _).trans (frame.original.trans released)

/-- Stripping slashes keeps the promise if there is nothing to strip. -/
theorem isolated_stripcslashes_iff (present : load heap string = some object)
    (several : 1 < object.refcount) :
    Isolated heap string .stripcslashes ↔ Parser.stripcslashes object.text = object.text := by
  obtain ⟨after, final, left, ran, returned, cut, -, rest, seen, len, -, -⟩ :=
    stripcslashes_shared present several
  have alone (alone : Object) (single : alone.refcount ≤ 1) (same : alone.text = object.text) :
      ∃ (after : Heap) (final : Object),
        Heap.stripcslashes (alloc heap alone) heap.length = some (heap.length, after) ∧
        load after heap.length = some final ∧ final.text = Parser.stripcslashes object.text := by
    obtain ⟨after, final, ran, returned, text, -⟩ :=
      stripcslashes_alone (load_alloc_self heap alone) single
    exact ⟨after, final, ran, returned, same ▸ text⟩
  constructor
  · intro isolated
    obtain ⟨other, single, ended, same⟩ := exists_alone object.text
    obtain ⟨expected, there, success, placed, -⟩ := alone other single same
    obtain ⟨_, _, _, kept, again, -, -, still, unchanged, -⟩ :=
      isolated object other present single ended same _ expected there success placed
    cases ran.symm.trans again
    obtain rfl := Option.some.inj (rest.symm.trans still)
    rw [unchanged] at seen
    by_cases whole : object.len ≤ (Parser.stripcslashes object.text).length
    · have size := Nat.le_antisymm whole (object.length_text ▸ Parser.length_stripcslashes object.text)
      rw [size, List.take_left] at seen
      exact seen.symm
    · obtain ⟨more, size⟩ := Nat.exists_eq_add_of_lt (Nat.lt_of_not_le whole)
      rw [size, Nat.add_assoc, List.take_length_add_append, List.take_succ_cons] at seen
      exact absurd seen (Parser.stripcslashes_apart object.text _)
  · intro nothing held other loaded single ended same returnedThere afterThere result ranThere found
    obtain rfl := Option.some.inj (present.symm.trans loaded)
    obtain ⟨expected, there, success, placed, text⟩ := alone other single same
    cases success.symm.trans ranThere
    obtain rfl := Option.some.inj (placed.symm.trans found)
    refine ⟨_, after, final, left, ran, returned, ?_, rest, ?_, len⟩
    · rw [cut, text, nothing, List.take_length]
    · rw [seen, nothing]
      apply List.take_left'
      exact object.length_text

/-- A reduction that goes on to its search has no result for a string with several holders. -/
theorem not_isolated_reduce (present : load heap string = some object)
    (several : 1 < object.refcount) (searches : mutation.reduces object.text = true) :
    ¬Isolated heap string mutation := by
  cases mutation with
  | strReduce search replacement =>
    simp only [Mutation.reduces, Bool.and_eq_true, decide_eq_true_eq, bne_iff_ne] at searches
    obtain ⟨⟨shorter, some⟩, characters⟩ := searches
    have nonempty : search ≠ [] := fun empty => some (congrArg List.length empty)
    have goes (object : Object) (same : object.text.length ≠ 0) :
        (replacement.length > search.length || search.length = 0 || object.len = 0 : Bool) = false := by
      rw [object.length_text] at same
      simp [shorter, some, same]
    intro isolated
    obtain ⟨alone, single, ended, same⟩ := exists_alone object.text
    obtain ⟨final, reduced⟩ := exists_strReduce nonempty shorter alone
    have success : Heap.strReduce (alloc heap alone) heap.length search replacement =
        .some (heap.length, put (alloc heap alone) heap.length (.some final)) := by
      rw [Heap.strReduce, load_alloc_self, Option.bind_some,
        if_neg (by rw [goes alone (same.symm ▸ characters)]; exact Bool.false_ne_true),
        Heap.separate_alone (load_alloc_self heap alone) single, Option.bind_some]
      dsimp only
      rw [if_pos rfl, Heap.update_eq (load_alloc_self heap alone), reduced, Option.map_some]
    obtain ⟨_, _, _, _, ran, -⟩ := isolated object alone present single ended same _ _ final success
      (load_put_self (load_alloc_self heap alone) _)
    have stuck : Heap.strReduce heap string search replacement = none := by
      rw [Heap.strReduce, present, Option.bind_some,
        if_neg (by rw [goes object characters]; exact Bool.false_ne_true),
        Heap.separate_shared present several, Option.bind_some]
      exact if_neg (Nat.ne_of_gt (load_lt present))
    cases stuck.symm.trans ran
  | _ => cases searches

/-- What is promised of a string with more holders than the operation is given holds of all
operations but a reduction that goes on to its search and the stripping of slashes that are
there. -/
theorem isolated_iff (present : load heap string = some object) (terminated : object.Terminated)
    (others : mutation.uses string < object.refcount) :
    Isolated heap string mutation ↔
      mutation.reduces object.text = false ∧ mutation.strips object.text = false := by
  have several : 1 < object.refcount :=
    Nat.lt_of_le_of_lt (mutation.uses_pos string) others
  by_cases slashes : mutation = .stripcslashes
  · subst slashes
    rw [isolated_stripcslashes_iff present several]
    simp [Mutation.reduces, Mutation.strips]
  · have none : mutation.strips object.text = false := by
      cases mutation <;> first | rfl | exact absurd rfl slashes
    constructor
    · intro isolated
      refine ⟨Bool.eq_false_iff.mpr fun searches => ?_, none⟩
      exact not_isolated_reduce present several searches isolated
    · rintro ⟨quiet, -⟩
      by_cases indents : ∃ input indent, mutation = .indentAppend input indent
      · obtain ⟨input, indent, rfl⟩ := indents
        exact isolated_indentAppend present terminated others
      · refine isolated_of_separates (mutation_separates mutation _ quiet slashes ?_) present several
          terminated
        rintro input indent rfl
        exact indents ⟨input, indent, rfl⟩

/-- A string with two holders. -/
def twice (text : Str) : Object := { Object.ctor text with refcount := 2 }

/-- Two strings with two holders each -/
def sharedHeap : Heap := [some (twice (bytes "ab")), some (twice (bytes "a b  "))]

/-- The blanks go from the copy only. -/
theorem isolated_iff_rtrim : Isolated sharedHeap 1 (.rtrim (bytes " ")) ∧
    ∃ returned after, (Mutation.rtrim (bytes " ")).apply sharedHeap 1 = some (returned, after) ∧
      (load after returned).map Object.text = some (bytes "a b") ∧
      (load after 1).map Object.text = some (bytes "a b  ") := by
  have isolated := @isolated_iff sharedHeap 1 (twice (bytes "a b  ")) (.rtrim (bytes " ")) rfl rfl
    (by decide)
  exact ⟨isolated.mpr ⟨rfl, rfl⟩, _, _, rfl, rfl, rfl⟩

/-- The other holder of a backslash and an `n` sees a line end. -/
theorem not_isolated_slash :
    ¬∀ heap string object mutation, load heap string = some object → object.Terminated →
      mutation.uses string < object.refcount → Isolated heap string mutation := by
  intro isolated
  have here : load [some (twice (bytes "\\n"))] 0 = some (twice (bytes "\\n")) := rfl
  have promise := isolated _ 0 _ .stripcslashes here rfl (by decide)
  have kept := (isolated_stripcslashes_iff here (by decide)).mp promise
  revert kept
  decide

end HandlebarsC.Strings
