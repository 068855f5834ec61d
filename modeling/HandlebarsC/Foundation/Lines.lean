import Mathlib.Data.List.Basic

/-!
Texts as lines between separators, and texts whose lines are indented.
-/

namespace Lines

variable {α : Type} [BEq α] [LawfulBEq α] {sep : α}
  {indent inner text piece : List α}

/-- The pieces of a text with the indent in front of each. An empty last piece is no line. -/
def indentPieces (indent : List α) : List (List α) → List (List α)
  | [] => []
  | [last] => [if last = [] then [] else indent ++ last]
  | piece :: next :: rest => (indent ++ piece) :: indentPieces indent (next :: rest)

/-- The text with the indent in front of each of its lines. -/
def indentLines (sep : α) (indent text : List α) : List α :=
  [sep].intercalate (indentPieces indent (text.splitOn sep))

omit [LawfulBEq α] in
theorem splitOn_pieces (sep : α) (text : List α) : ∃ piece rest, text.splitOn sep = piece :: rest :=
  List.exists_cons_of_ne_nil (List.splitOn_ne_nil sep text)

/-- No piece contains the separator. -/
theorem not_mem_piece (member : piece ∈ text.splitOn sep) : sep ∉ piece := by
  induction text generalizing piece with
  | nil =>
    obtain rfl := List.mem_singleton.mp (List.splitOn_nil sep ▸ member)
    exact List.not_mem_nil
  | cons char text ih =>
    rw [List.splitOn_cons_eq_if_modifyHead] at member
    obtain ⟨first, rest, pieces⟩ := splitOn_pieces sep text
    rw [pieces] at ih
    split at member
    · rcases List.mem_cons.mp member with rfl | later
      · exact List.not_mem_nil
      · exact ih (pieces ▸ later)
    · rename_i other
      rw [pieces, List.modifyHead_cons] at member
      rcases List.mem_cons.mp member with rfl | later
      · intro inside
        rcases List.mem_cons.mp inside with rfl | deeper
        · exact other (beq_self_eq_true _)
        · exact ih List.mem_cons_self deeper
      · exact ih (List.mem_cons_of_mem _ later)

omit [BEq α] [LawfulBEq α] in
theorem indentPieces_ne_nil (indent piece : List α) (rest : List (List α)) :
    indentPieces indent (piece :: rest) ≠ [] := by
  cases rest with
  | nil => exact List.cons_ne_nil _ _
  | cons next rest => exact List.cons_ne_nil _ _

omit [BEq α] [LawfulBEq α] in
theorem not_mem_indentPieces (plain : sep ∉ indent) (pieces : List (List α))
    (free : ∀ piece ∈ pieces, sep ∉ piece) :
    ∀ piece ∈ indentPieces indent pieces, sep ∉ piece := by
  induction pieces using indentPieces.induct with
  | case1 => exact fun _ member => absurd member List.not_mem_nil
  | case2 last =>
    intro piece member
    obtain rfl := List.mem_singleton.mp member
    split
    · exact List.not_mem_nil
    · simpa [plain] using free last List.mem_cons_self
  | case3 first next rest ih =>
    intro piece member
    rcases List.mem_cons.mp member with rfl | later
    · simpa [plain] using free first List.mem_cons_self
    · exact ih (fun other inside => free other (List.mem_cons_of_mem _ inside)) piece later

omit [BEq α] [LawfulBEq α] in
theorem indentPieces_cons (indent piece : List α) (rest : List (List α)) (more : rest ≠ []) :
    indentPieces indent (piece :: rest) = (indent ++ piece) :: indentPieces indent rest := by
  cases rest with
  | nil => exact absurd rfl more
  | cons next rest => rfl

omit [BEq α] [LawfulBEq α] in
theorem indentPieces_twice (inner outer : List α) (pieces : List (List α)) :
    indentPieces outer (indentPieces inner pieces) = indentPieces (outer ++ inner) pieces := by
  induction pieces using indentPieces.induct with
  | case1 => rfl
  | case2 last =>
    by_cases empty : last = []
    · simp [indentPieces, empty]
    · simp [indentPieces, empty]
  | case3 first next rest ih =>
    rw [indentPieces, indentPieces_cons _ _ _ (indentPieces_ne_nil inner next rest), ih,
      indentPieces, List.append_assoc]

omit [BEq α] [LawfulBEq α] in
theorem indentPieces_nil (pieces : List (List α)) : indentPieces [] pieces = pieces := by
  induction pieces using indentPieces.induct with
  | case1 => rfl
  | case2 last =>
    rw [indentPieces]
    split
    · rename_i empty
      rw [empty]
    · rfl
  | case3 first next rest ih => rw [indentPieces, ih, List.nil_append]

/-- An empty indent changes nothing. -/
theorem indentLines_nil (sep : α) (text : List α) : indentLines sep [] text = text := by
  rw [indentLines, indentPieces_nil, List.intercalate_splitOn]

/-- An indent behind another is one indent. -/
theorem indentLines_twice (plain : sep ∉ inner) (outer text : List α) :
    indentLines sep outer (indentLines sep inner text) = indentLines sep (outer ++ inner) text := by
  obtain ⟨piece, rest, pieces⟩ := splitOn_pieces sep text
  have free : ∀ piece ∈ text.splitOn sep, sep ∉ piece := fun _ => not_mem_piece
  have some : indentPieces inner (text.splitOn sep) ≠ [] := by
    rw [pieces]
    exact indentPieces_ne_nil inner piece rest
  unfold indentLines
  rw [List.splitOn_intercalate sep (not_mem_indentPieces plain _ free) some, indentPieces_twice]

/-- The text behind the indent of its first line, written character by character. -/
def indentRest (sep : α) (indent : List α) : List α → List α
  | [] => []
  | [char] => [char]
  | char :: next :: rest =>
    if char == sep then char :: (indent ++ indentRest sep indent (next :: rest))
    else char :: indentRest sep indent (next :: rest)

/-- The first piece, and the lines behind it. -/
private def joined (sep : α) (indent : List α) : List (List α) → List α
  | [] => []
  | [piece] => piece
  | piece :: next :: rest =>
    piece ++ sep :: [sep].intercalate (indentPieces indent (next :: rest))

private theorem indentLines_joined (some : text ≠ []) :
    indentLines sep indent text = indent ++ joined sep indent (text.splitOn sep) := by
  have whole : [sep].intercalate (text.splitOn sep) = text := List.intercalate_splitOn sep
  unfold indentLines
  obtain ⟨piece, rest, pieces⟩ := splitOn_pieces sep text
  rw [pieces] at whole ⊢
  cases rest with
  | nil =>
    rw [List.intercalate_singleton] at whole
    rw [whole, indentPieces, if_neg some, List.intercalate_singleton, joined]
  | cons next rest =>
    rw [indentPieces_cons _ _ _ (List.cons_ne_nil next rest), joined,
      List.intercalate_cons_of_ne_nil (indentPieces_ne_nil indent next rest)]
    simp only [List.append_assoc, List.singleton_append]

private theorem indentRest_joined (sep : α) (indent text : List α) :
    indentRest sep indent text = joined sep indent (text.splitOn sep) := by
  induction text using indentRest.induct sep with
  | case1 => rfl
  | case2 char =>
    rw [List.splitOn_cons_eq_if_modifyHead, List.splitOn_nil]
    split
    · rename_i same
      obtain rfl := eq_of_beq same
      rfl
    · rfl
  | case3 char next rest same ih =>
    have lines := @indentLines_joined _ _ _ sep indent _ (List.cons_ne_nil next rest)
    rw [indentRest, if_pos same, ih, ← lines, List.splitOn_cons_eq_if_modifyHead char, if_pos same]
    obtain ⟨piece, more, pieces⟩ := splitOn_pieces sep (next :: rest)
    rw [eq_of_beq same, indentLines, pieces]
    rfl
  | case4 char next rest other ih =>
    rw [indentRest, if_neg other, ih, List.splitOn_cons_eq_if_modifyHead char, if_neg other]
    obtain ⟨piece, more, pieces⟩ := splitOn_pieces sep (next :: rest)
    rw [pieces]
    cases more <;> rfl

/-- Of a text with characters the first line is indented, and each that starts behind
a separator. -/
theorem indentLines_eq (some : text ≠ []) :
    indentLines sep indent text = indent ++ indentRest sep indent text := by
  rw [indentLines_joined some, indentRest_joined]

theorem indentLines_ne_nil (some : text ≠ []) : indentLines sep indent text ≠ [] := by
  obtain ⟨char, rest, rfl⟩ := List.exists_cons_of_ne_nil some
  rw [indentLines_eq some]
  apply List.append_ne_nil_of_right_ne_nil
  cases rest with
  | nil => exact List.cons_ne_nil _ _
  | cons next rest =>
    rw [indentRest]
    split <;> exact List.cons_ne_nil _ _

end Lines
