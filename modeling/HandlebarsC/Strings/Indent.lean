import HandlebarsC.Strings.Object
import HandlebarsC.Foundation.Lines

/-!
`handlebars_string_indent_append`, which looks at the last byte of its text before it
writes the first.
-/

namespace HandlebarsC.Strings

open Lines

/-- The loop over the text up to the line end it ends in. -/
def indentLoop (indent : Str) (appendTo : Object) : Str → Option Object
  | [] => some appendTo
  | char :: rest =>
    if char = 10 then
      (appendTo.append [10]).bind fun appendTo =>
      (appendTo.append indent).bind fun appendTo => indentLoop indent appendTo rest
    else
      (appendTo.append [char]).bind fun appendTo => indentLoop indent appendTo rest

/-- `handlebars_string_indent_append` to a string with one holder. There is no result where
`str[str_len - 1]` is not a byte of the text. -/
def indentAppend (appendTo : Object) (input indent : Str) : Option Object :=
  input.getLast?.bind fun last =>
  let endsInLine := last == 10
  (appendTo.append indent).bind fun appendTo =>
  (indentLoop indent appendTo (if endsInLine then input.dropLast else input)).bind fun appendTo =>
  if endsInLine then appendTo.append [10] else some appendTo

variable {buffer : Object} {text indent : Str}

theorem indentLoop_spec (indent text : Str) (buffer : Object) :
    ∃ after, indentLoop indent buffer text = some after ∧ after.text =
      buffer.text ++ text.flatMap fun char => if char = 10 then 10 :: indent else [char] := by
  induction text generalizing buffer with
  | nil => exact ⟨buffer, rfl, (List.append_nil _).symm⟩
  | cons char rest ih =>
    rw [indentLoop, List.flatMap_cons]
    split
    · obtain ⟨first, success, appended, -⟩ := buffer.append_spec [10]
      obtain ⟨second, successAfter, appendedAfter, -⟩ := first.append_spec indent
      obtain ⟨after, looped, result⟩ := ih second
      refine ⟨after, ?_, ?_⟩
      · simp only [success, successAfter, Option.bind_some, looped]
      · rw [result, appendedAfter.text, appended.text]
        simp only [List.append_assoc, List.cons_append, List.nil_append]
    · obtain ⟨first, success, appended, -⟩ := buffer.append_spec [char]
      obtain ⟨after, looped, result⟩ := ih first
      refine ⟨after, ?_, ?_⟩
      · simp only [success, Option.bind_some, looped]
      · rw [result, appended.text, List.append_assoc]

/-- What the loop and the line end behind it write is what stands behind the first indent. -/
theorem indentRest_snoc (indent front : Str) (last : UInt8) :
    indentRest 10 indent (front ++ [last]) =
      (if last == 10 then front else front ++ [last]).flatMap
        (fun char => if char = 10 then 10 :: indent else [char]) ++
          (if last == 10 then [10] else []) := by
  induction front with
  | nil =>
    by_cases line : last = 10
    · simp [indentRest, line]
    · simp [indentRest, line]
  | cons char front ih =>
    obtain ⟨next, rest, behind⟩ := List.exists_cons_of_ne_nil (List.concat_ne_nil last front)
    rw [List.cons_append, behind, indentRest, ← behind, ih]
    by_cases line : last = 10
    · by_cases newline : char = 10
      · simp [line, newline]
      · simp [line, newline]
    · by_cases newline : char = 10
      · simp [line, newline]
      · simp [line, newline]

/-- A text with characters is appended with the indent in front of each of its lines. -/
theorem indentAppend_spec (buffer : Object) (some : text ≠ []) (indent : Str) :
    ∃ after, indentAppend buffer text indent = .some after ∧
      after.text = buffer.text ++ indentLines 10 indent text := by
  rw [indentLines_eq some]
  obtain ⟨front, last, rfl⟩ := (List.eq_nil_or_concat text).resolve_left some
  rw [List.concat_eq_append]
  obtain ⟨first, success, indented, -⟩ := buffer.append_spec indent
  obtain ⟨looped, loop, written⟩ :=
    indentLoop_spec indent (if last == 10 then front else front ++ [last]) first
  have start : indentAppend buffer (front ++ [last]) indent =
      if last == 10 then looped.append [10] else .some looped := by
    simp only [indentAppend, List.getLast?_append, List.getLast?_singleton, Option.some_or,
      Option.bind_some, success, List.dropLast_concat, loop]
  have result : first.text = buffer.text ++ indent := indented.text
  rw [start, indentRest_snoc]
  by_cases line : (last == 10) = true
  · obtain ⟨after, ended, appended, -⟩ := looped.append_spec [10]
    refine ⟨after, ?_, ?_⟩
    · rw [if_pos line, ended]
    · rw [appended.text, written, result, if_pos line, if_pos line]
      simp only [List.append_assoc]
  · refine ⟨looped, if_neg line, ?_⟩
    rw [written, result, if_neg line, if_neg line, List.append_nil, List.append_assoc]

/-- What appending a text with an indent promises of every buffer: the lines of the text are
appended with the indent in front of each, an empty indent adds nothing, and two indents one
after the other are one. -/
structure IndentsLines (text : Str) : Prop where
  lines : ∀ (buffer : Object) (indent : Str), 10 ∉ indent →
    ∃ after, indentAppend buffer text indent = some after ∧
      after.text = buffer.text ++ indentLines 10 indent text
  unindented : ∀ buffer : Object, ∃ after, indentAppend buffer text [] = some after ∧
    after.text = buffer.text ++ text
  twice : ∀ (buffer : Object) (inner outer : Str), 10 ∉ inner → 10 ∉ outer →
    ∃ once second both, indentAppend (.init text.length) text inner = some once ∧
      indentAppend buffer once.text outer = some second ∧
      indentAppend buffer text (outer ++ inner) = some both ∧ second.text = both.text

/-- The promise is kept for exactly the texts that are not empty: of an empty text the byte in
front of it is read. -/
theorem indent_append_iff (text : Str) : IndentsLines text ↔ text ≠ [] := by
  constructor
  · rintro promise rfl
    obtain ⟨after, success, -⟩ := promise.unindented (.init 0)
    cases success
  · intro characters
    refine ⟨fun buffer indent _ => indentAppend_spec buffer characters indent, ?_, ?_⟩
    · intro buffer
      obtain ⟨after, success, written⟩ := indentAppend_spec buffer characters []
      exact ⟨after, success, by rw [written, indentLines_nil]⟩
    · intro buffer inner outer plain _
      obtain ⟨once, first, inside⟩ := indentAppend_spec (.init text.length) characters inner
      rw [Object.text_init, List.nil_append] at inside
      have still : once.text ≠ [] := by
        rw [inside]
        exact indentLines_ne_nil characters
      obtain ⟨second, outside, written⟩ := indentAppend_spec buffer still outer
      obtain ⟨both, together, same⟩ := indentAppend_spec buffer characters (outer ++ inner)
      refine ⟨once, second, both, first, outside, together, ?_⟩
      rw [written, same, inside, indentLines_twice plain]

/-- An empty text is not left out. -/
theorem not_indents_empty : ¬∀ text, IndentsLines text := by
  intro promise
  obtain ⟨after, success, -⟩ := (promise []).unindented (.init 0)
  cases success

example : indentLines 10 (bytes "  ") (bytes "a\n\nb\n") = bytes "  a\n  \n  b\n" := by
  decide

end HandlebarsC.Strings
