import HandlebarsC.Parser.Lexer
import Mathlib.Data.List.Induction

/-!
The text of a comment: what the lexer returns as one, and what
`handlebars_ast_helper_strip_comment` cuts off its two ends.
-/

namespace HandlebarsC.Parser

open Pattern

/-- A character of a C string, or its terminator. -/
def charAt (text : Str) (index : Nat) : UInt8 := text.getD index 0

def skipChar (text : Str) (char : UInt8) (index : Nat) : Nat :=
  if charAt text index = char then index + 1 else index

/-- `handlebars_ast_helper_strip_comment_left` -/
def stripCommentLeft (comment : Str) : Nat :=
  if charAt comment 0 ≠ 123 then 0
  else if charAt comment 1 ≠ 123 then 0
  else if charAt comment 2 ≠ 126 ∧ charAt comment 2 = 0 then 0
  else
    let start := skipChar comment 126 2
    if charAt comment start ≠ 33 then 0
    else skipChar comment 45 (skipChar comment 45 (start + 1))

def dropChar (text : Str) (char : UInt8) (len : Nat) : Nat :=
  if 0 < len ∧ charAt text (len - 1) = char then len - 1 else len

/-- `handlebars_ast_helper_strip_comment_right` -/
def stripCommentRight (comment : Str) : Nat :=
  let len := comment.length
  if len < 2 then len
  else if charAt comment (len - 1) ≠ 125 then len
  else if charAt comment (len - 2) ≠ 125 then len
  else dropChar comment 45 (dropChar comment 45 (dropChar comment 126 (len - 2)))

/-- `handlebars_ast_helper_strip_comment` -/
def stripComment (comment : Str) : Option Str :=
  truncate comment (stripCommentLeft comment) (stripCommentRight comment)

/-- What opens a comment, and at most two dashes -/
def leftCut : Pattern :=
  text "\x7b\x7b" (strip (text "!" (.chain (.optional (text "-" .blank)) (.optional (text "-" .blank)))))

/-- At most two dashes, and what closes a comment -/
def rightCut : Pattern :=
  .chain (.optional (text "-" .blank)) (.chain (.optional (text "-" .blank))
    (strip (text "\x7d\x7d" .blank)))

/-- A comment without the longest opening, and then without the longest closing. -/
structure Stripped (comment rest : Str) : Prop where
  split : ∃ left right, comment = left ++ rest ++ right ∧ Regex.Finds leftCut comment left.length ∧
    rightCut.Matches right ∧ ∀ before after, rest ++ right = before ++ after →
      rightCut.Matches after → after.length ≤ right.length

/-- The two cuts do not overlap, the length does not wrap around, and the rest is left. -/
structure StripsWell (comment : Str) : Prop where
  ordered : stripCommentLeft comment ≤ stripCommentRight comment
  bounded : stripCommentRight comment ≤ comment.length
  stripped : ∃ rest, stripComment comment = some rest ∧ Stripped comment rest

/-- The comments whose dash belongs to both cuts -/
def overlapping : List Str := [bytes "\x7b\x7b!-\x7d\x7d", bytes "\x7b\x7b~!-\x7d\x7d",
  bytes "\x7b\x7b!-~\x7d\x7d", bytes "\x7b\x7b~!-~\x7d\x7d"]

/-- The text without a character at its end -/
def dropEnd (char : UInt8) (text : Str) : Str :=
  if text.getLast? = some char then text.dropLast else text

theorem dropEnd_append (char : UInt8) (text : Str) : dropEnd char (text ++ [char]) = text := by
  simp [dropEnd]

theorem dropEnd_other (different : c ≠ char) (text : Str) :
    dropEnd char (text ++ [c]) = text ++ [c] := by
  simp [dropEnd, different]

theorem dropEnd_split (char : UInt8) (text : Str) :
    ∃ dropped, (dropped = [] ∨ dropped = [char]) ∧ text = dropEnd char text ++ dropped := by
  unfold dropEnd
  split_ifs with last
  · exact ⟨[char], .inr rfl, (List.dropLast_append_getLast? char last).symm⟩
  · exact ⟨[], .inl rfl, by simp⟩

theorem dropEnd_front (other : front.getLast? ≠ some char) (text : Str) :
    dropEnd char (front ++ text) = front ++ dropEnd char text := by
  unfold dropEnd
  cases text using List.reverseRecOn with
  | nil => simp [other]
  | append_singleton text c _ =>
    simp only [← List.append_assoc, List.getLast?_append, List.getLast?_singleton, Option.some_or,
      List.dropLast_concat]
    split_ifs <;> simp

/-- What `handlebars_ast_helper_strip_comment_right` leaves in front of the braces -/
def cutRight (text : Str) : Str := dropEnd 45 (dropEnd 45 (dropEnd 126 text))

theorem dropEnd_kept (char : UInt8) (text : Str) : dropEnd char text <+: text := by
  obtain ⟨dropped, _, same⟩ := dropEnd_split char text
  exact ⟨dropped, same.symm⟩

theorem dropChar_prefix (front : before <+: comment) (char : UInt8) :
    dropChar comment char before.length = (dropEnd char before).length := by
  obtain ⟨after, rfl⟩ := front
  unfold dropChar dropEnd
  cases before using List.reverseRecOn with
  | nil => simp
  | append_singleton before c _ =>
    have last : charAt (before ++ [c] ++ after) ((before ++ [c]).length - 1) = c := by
      simp [charAt, List.getD]
    rw [last]
    simp only [List.length_append, List.length_singleton, List.getLast?_append,
      List.getLast?_singleton, Option.some_or, Option.some.injEq]
    split_ifs <;> simp_all

theorem stripCommentRight_append (text : Str) :
    stripCommentRight (text ++ [125, 125]) = (cutRight text).length := by
  have last : charAt (text ++ [125, 125]) ((text ++ [125, 125]).length - 1) = 125 := by
    simp [charAt, List.getD]
  have earlier : charAt (text ++ [125, 125]) ((text ++ [125, 125]).length - 2) = 125 := by
    simp [charAt, List.getD]
  have size : (text ++ [125, 125]).length - 2 = text.length := by simp
  have front : text <+: text ++ [125, 125] := List.prefix_append ..
  have front_tilde := (dropEnd_kept 126 text).trans front
  have front_dash := (dropEnd_kept 45 _).trans front_tilde
  unfold stripCommentRight cutRight
  dsimp only
  rw [if_neg (by simp), last, earlier, if_neg (by simp), if_neg (by simp), size,
    dropChar_prefix front, dropChar_prefix front_tilde, dropChar_prefix front_dash]

theorem cutRight_kept (text : Str) : cutRight text <+: text :=
  (dropEnd_kept ..).trans ((dropEnd_kept ..).trans (dropEnd_kept ..))

theorem cutRight_front (other : ∃ before, front = before ++ [(33 : UInt8)]) (text : Str) :
    cutRight (front ++ text) = front ++ cutRight text := by
  obtain ⟨before, rfl⟩ := other
  unfold cutRight
  rw [dropEnd_front (by simp), dropEnd_front (by simp), dropEnd_front (by simp)]

theorem rightCut_matches (text : Str) :
    rightCut.Matches text ↔ ∃ first second tilde, (first = [] ∨ first = [45]) ∧
      (second = [] ∨ second = [45]) ∧ (tilde = [] ∨ tilde = [126]) ∧
      text = first ++ (second ++ (tilde ++ [125, 125])) := by
  have dash : bytes "-" = [45] := by decide
  simp only [rightCut, strip, Pattern.text, Regex.Matches, dash, bytes_close, Regex.optional_matches,
    Regex.literal_matches]
  constructor
  · rintro ⟨first, _, rfl, is_first, second, _, rfl, is_second, tilde, _, rfl, is_tilde, _, rfl, rfl⟩
    exact ⟨first, second, tilde, is_first, is_second, is_tilde, rfl⟩
  · rintro ⟨first, second, tilde, is_first, is_second, is_tilde, rfl⟩
    exact ⟨first, _, rfl, is_first, second, _, rfl, is_second, tilde, _, rfl, is_tilde, [], rfl, rfl⟩

/-- The cut takes every ending that matches. -/
theorem cutRight_length_le (is_first : first = [] ∨ first = [45]) (is_second : second = [] ∨ second = [45])
    (is_tilde : tilde = [] ∨ tilde = [126]) (text : Str) :
    (cutRight (text ++ (first ++ (second ++ tilde)))).length ≤ text.length := by
  have any (c : UInt8) (front : Str) : (dropEnd c front).length ≤ front.length :=
    (dropEnd_kept c front).length_le
  have dashes : (dropEnd 45 (dropEnd 45 (text ++ (first ++ second)))).length ≤ text.length := by
    rcases is_second with rfl | rfl
    · rcases is_first with rfl | rfl
      · simpa using Nat.le_trans (any 45 (dropEnd 45 text)) (any 45 text)
      · simpa [dropEnd_append] using any 45 text
    · rw [← List.append_assoc, dropEnd_append]
      rcases is_first with rfl | rfl
      · simpa using any 45 text
      · exact Nat.le_of_eq (congrArg List.length (dropEnd_append 45 text))
  unfold cutRight
  rcases is_tilde with rfl | rfl
  · rw [List.append_nil]
    by_cases ends : first ++ second = []
    · rw [ends, List.append_nil]
      exact Nat.le_trans (any 45 _) (Nat.le_trans (any 45 _) (any 126 _))
    · have last : ∃ front, first ++ second = front ++ [45] := by
        rcases is_first with rfl | rfl <;> rcases is_second with rfl | rfl
        · exact absurd rfl ends
        · exact ⟨[], rfl⟩
        · exact ⟨[], rfl⟩
        · exact ⟨[45], rfl⟩
      obtain ⟨front, same⟩ := last
      rw [same, ← List.append_assoc, dropEnd_other (by decide), List.append_assoc, ← same]
      exact dashes
  · rw [← List.append_assoc, ← List.append_assoc, dropEnd_append, List.append_assoc]
    exact dashes

theorem cutRight_split (body : Str) :
    ∃ first second tilde, (first = [] ∨ first = [45]) ∧ (second = [] ∨ second = [45]) ∧
      (tilde = [] ∨ tilde = [126]) ∧ body = cutRight body ++ (first ++ (second ++ tilde)) := by
  obtain ⟨tilde, is_tilde, tilde_split⟩ := dropEnd_split 126 body
  obtain ⟨second, is_second, second_split⟩ := dropEnd_split 45 (dropEnd 126 body)
  obtain ⟨first, is_first, first_split⟩ := dropEnd_split 45 (dropEnd 45 (dropEnd 126 body))
  refine ⟨first, second, tilde, is_first, is_second, is_tilde, ?_⟩
  conv_lhs => rw [tilde_split, second_split, first_split]
  simp [cutRight]

/-- What is cut off matches, and nothing longer at the end does. -/
theorem cutRight_spec (text : Str) :
    ∃ right, text ++ [125, 125] = cutRight text ++ right ∧ rightCut.Matches right ∧
      ∀ before after, text ++ [125, 125] = before ++ after → rightCut.Matches after →
        after.length ≤ right.length := by
  obtain ⟨first, second, tilde, is_first, is_second, is_tilde, same⟩ := cutRight_split text
  have split : text ++ [125, 125] = cutRight text ++ (first ++ (second ++ (tilde ++ [125, 125]))) := by
    conv_lhs => rw [same]
    simp
  refine ⟨_, split, (rightCut_matches _).mpr ⟨first, second, tilde, is_first, is_second, is_tilde,
    rfl⟩, ?_⟩
  intro before after same matched
  obtain ⟨dash, dash', wave, is_dash, is_dash', is_wave, rfl⟩ := (rightCut_matches _).mp matched
  have text_eq : text = before ++ (dash ++ (dash' ++ wave)) := by
    have ends : text ++ [125, 125] = (before ++ (dash ++ (dash' ++ wave))) ++ [125, 125] := by
      simpa using same
    exact List.append_cancel_right ends
  have shorter : (cutRight text).length ≤ before.length := by
    rw [text_eq]
    exact cutRight_length_le is_dash is_dash' is_wave before
  have sizes := congrArg List.length split
  have sizes' := congrArg List.length same
  simp only [List.length_append] at sizes sizes' ⊢
  omega

/-- What a comment opens with -/
def openings : List Str := [[123, 123, 33], [123, 123, 126, 33]]

/-- The dashes that `handlebars_ast_helper_strip_comment_left` takes -/
def dashes (body : Str) : Nat :=
  if charAt body 0 = 45 then if charAt body 1 = 45 then 2 else 1 else 0

theorem stripCommentLeft_append (opening : front ∈ openings) (text : Str) :
    stripCommentLeft (front ++ text) = front.length + dashes text := by
  have two (start : Nat) (whole : Str) (front : whole.drop start = text) :
      skipChar whole 45 (skipChar whole 45 start) = start + dashes text := by
    have inside (k : Nat) : charAt whole (start + k) = charAt text k := by
      simp [charAt, ← front, List.getD, List.getElem?_drop]
    have first := inside 0
    have second := inside 1
    rw [Nat.add_zero] at first
    unfold skipChar dashes
    rw [first]
    split_ifs <;> simp_all
  simp only [openings, List.mem_cons, List.not_mem_nil, or_false] at opening
  rcases opening with rfl | rfl
  · have found := two 3 ([123, 123, 33] ++ text) rfl
    simpa [stripCommentLeft, charAt, skipChar] using found
  · have found := two 4 ([123, 123, 126, 33] ++ text) rfl
    simpa [stripCommentLeft, charAt, skipChar] using found

theorem leftCut_matches (text : Str) :
    leftCut.Matches text ↔ ∃ front first second, front ∈ openings ∧ (first = [] ∨ first = [45]) ∧
      (second = [] ∨ second = [45]) ∧ text = front ++ (first ++ second) := by
  have dash : bytes "-" = [45] := by decide
  have bang : bytes "!" = [33] := by decide
  simp only [leftCut, strip, Pattern.text, Regex.Matches, dash, bang, bytes_open,
    Regex.optional_matches, Regex.literal_matches, openings, List.mem_cons, List.not_mem_nil, or_false]
  constructor
  · rintro ⟨_, rfl, tilde, _, rfl, is_tilde, _, rfl, first, second, rfl, is_first, is_second⟩
    refine ⟨[123, 123] ++ tilde ++ [33], first, second, ?_, is_first, is_second, by simp⟩
    rcases is_tilde with rfl | rfl <;> simp
  · rintro ⟨front, first, second, opening, is_first, is_second, rfl⟩
    rcases opening with rfl | rfl
    · exact ⟨_, rfl, [], _, rfl, .inl rfl, _, rfl, first, second, rfl, is_first, is_second⟩
    · exact ⟨_, rfl, [126], _, rfl, .inr rfl, _, rfl, first, second, rfl, is_first, is_second⟩

theorem dashes_cons (rest : Str) : dashes (45 :: rest) = if charAt rest 0 = 45 then 2 else 1 := by
  simp [dashes, charAt]

theorem dashes_split (body : Str) :
    ∃ first second rest, (first = [] ∨ first = [45]) ∧ (second = [] ∨ second = [45]) ∧
      body = first ++ second ++ rest ∧ (first ++ second).length = dashes body := by
  by_cases one : charAt body 0 = 45
  · cases body with
    | nil => simp [charAt] at one
    | cons c rest =>
      obtain rfl : c = 45 := one
      by_cases two : charAt rest 0 = 45
      · cases rest with
        | nil => simp [charAt] at two
        | cons d rest =>
          obtain rfl : d = 45 := two
          exact ⟨[45], [45], rest, .inr rfl, .inr rfl, rfl, rfl⟩
      · exact ⟨[45], [], rest, .inr rfl, .inl rfl, rfl, by rw [dashes_cons, if_neg two]; rfl⟩
  · exact ⟨[], [], body, .inl rfl, .inl rfl, rfl, by simp [dashes, one]⟩

theorem le_dashes (is_first : first = [] ∨ first = [45]) (is_second : second = [] ∨ second = [45])
    (rest : Str) : (first ++ second).length ≤ dashes (first ++ second ++ rest) := by
  rcases is_first with rfl | rfl <;> rcases is_second with rfl | rfl
  · exact Nat.zero_le _
  · have known : 1 ≤ dashes (45 :: rest) := by
      rw [dashes_cons]
      split_ifs <;> decide
    simpa using known
  · have known : 1 ≤ dashes (45 :: rest) := by
      rw [dashes_cons]
      split_ifs <;> decide
    simpa using known
  · simp [dashes, charAt]

/-- The left cut is the longest opening. -/
theorem finds_leftCut (opening : front ∈ openings) (body : Str) :
    Regex.Finds leftCut (front ++ body) (front.length + dashes body) := by
  constructor
  · obtain ⟨first, second, rest, is_first, is_second, same, size⟩ := dashes_split body
    refine ⟨front ++ (first ++ second), rest, by rw [List.append_assoc, ← same], ?_, ?_⟩
    · rw [List.length_append, size]
    · exact (leftCut_matches _).mpr ⟨front, first, second, opening, is_first, is_second, rfl⟩
  · intro before after same matched
    obtain ⟨front', first, second, opening', is_first, is_second, rfl⟩ := (leftCut_matches _).mp matched
    have fronts : front' = front ∧ body = first ++ second ++ after := by
      simp only [openings, List.mem_cons, List.not_mem_nil, or_false] at opening opening'
      rcases opening with rfl | rfl <;> rcases opening' with rfl | rfl <;> simp_all
    obtain ⟨rfl, rfl⟩ := fronts
    have small := le_dashes is_first is_second after
    rw [List.length_append]
    omega

theorem truncate_append (left rest right : Str) :
    truncate (left ++ rest ++ right) left.length (left ++ rest).length = some rest := by
  unfold truncate
  cases right with
  | nil => simp
  | cons c right =>
    have shorter : (left ++ rest).length < (left ++ rest ++ c :: right).length := by simp
    rw [if_pos shorter, List.take_left]
    simp

/-- The condition on the text between the opening and the braces -/
theorem stripsWell_iff (opening : front ∈ openings) (body : Str) :
    StripsWell (front ++ (body ++ [125, 125])) ↔ dashes (body ++ [125, 125]) ≤ (cutRight body).length := by
  have bang : ∃ before, front = before ++ [33] := by
    simp only [openings, List.mem_cons, List.not_mem_nil, or_false] at opening
    rcases opening with rfl | rfl
    · exact ⟨[123, 123], rfl⟩
    · exact ⟨[123, 123, 126], rfl⟩
  have left := stripCommentLeft_append opening (body ++ [125, 125])
  have right := stripCommentRight_append (front ++ body)
  rw [cutRight_front bang, List.length_append, List.append_assoc] at right
  constructor
  · intro well
    have ordered := well.ordered
    omega
  · intro ordered
    obtain ⟨ending, split, matched, longest⟩ := cutRight_spec body
    obtain ⟨kept, cut⟩ := cutRight_kept body
    have fits : (cutRight body).length ≤ body.length := (cutRight_kept body).length_le
    have finds := finds_leftCut opening (body ++ [125, 125])
    generalize dashes (body ++ [125, 125]) = taken at left ordered finds
    have opened : (front ++ (cutRight body).take taken).length = front.length + taken := by
      simp [ordered]
    have behind : (cutRight body).take taken ++ (cutRight body).drop taken = cutRight body :=
      List.take_append_drop ..
    have parts : front ++ (body ++ [125, 125]) =
        front ++ (cutRight body).take taken ++ (cutRight body).drop taken ++ ending := by
      rw [List.append_assoc front, behind, split, List.append_assoc]
    have closed : (front ++ (cutRight body).take taken ++ (cutRight body).drop taken).length =
        front.length + (cutRight body).length := by
      rw [List.append_assoc, behind, List.length_append]
    refine ⟨by omega, by simp [right]; omega, (cutRight body).drop taken, ?_, ⟨?_⟩⟩
    · rw [stripComment, left, right, parts, ← opened, ← closed, truncate_append]
    · refine ⟨_, ending, parts, by rwa [opened], matched, ?_⟩
      intro before after same ends
      refine longest ((cutRight body).take taken ++ before) after ?_ ends
      rw [split, List.append_assoc, ← same, ← List.append_assoc, behind]

theorem overlapping_eq : overlapping = [[123, 123, 33, 45, 125, 125],
    [123, 123, 126, 33, 45, 125, 125], [123, 123, 33, 45, 126, 125, 125],
    [123, 123, 126, 33, 45, 126, 125, 125]] := by
  decide

/-- A comment that does not open with two dashes -/
theorem stripsWell_short (opening : front ∈ openings) (body : Str) (short : ¬[45, 45] <+: body) :
    StripsWell (front ++ (body ++ [125, 125])) ↔ front ++ (body ++ [125, 125]) ∉ overlapping := by
  have cancel (left right : Str) : left ++ [125, 125] = right ++ [125, 125] ↔ left = right :=
    List.append_left_inj _
  have one := cancel body [45]
  have two := cancel body [45, 126]
  simp only [List.cons_append, List.nil_append] at one two
  have listed : front ++ (body ++ [125, 125]) ∈ overlapping ↔ body = [45] ∨ body = [45, 126] := by
    simp only [openings, List.mem_cons, List.not_mem_nil, or_false] at opening
    rcases opening with rfl | rfl <;> simp [overlapping_eq, one, two]
  rw [stripsWell_iff opening, listed]
  by_cases dash : charAt (body ++ [125, 125]) 0 = 45
  · cases body with
    | nil => simp [charAt] at dash
    | cons c body =>
      obtain rfl : c = 45 := dash
      have single : dashes (45 :: body ++ [125, 125]) = 1 := by
        rw [List.cons_append, dashes_cons, if_neg]
        intro again
        cases body with
        | nil => simp [charAt] at again
        | cons c body =>
          obtain rfl : c = 45 := again
          exact short (by simp)
      rw [single]
      constructor
      · rintro left (same | same) <;> rw [same] at left <;> exact absurd left (by decide)
      · intro other
        by_contra none
        have nothing : cutRight (45 :: body) = [] := List.length_eq_zero_iff.mp (by omega)
        obtain ⟨first, second, tilde, is_first, is_second, is_tilde, same⟩ := cutRight_split (45 :: body)
        rw [nothing, List.nil_append] at same
        rw [same] at other short
        rcases is_first with rfl | rfl <;> rcases is_second with rfl | rfl <;>
          rcases is_tilde with rfl | rfl <;> simp_all
  · have none : dashes (body ++ [125, 125]) = 0 := if_neg dash
    rw [none]
    refine iff_of_true (Nat.zero_le _) ?_
    rintro (rfl | rfl)
    · exact dash rfl
    · exact dash rfl

theorem cutRight_dashes (body : Str) (is_tilde : tilde = [] ∨ tilde = [126]) :
    cutRight (body ++ ([45, 45] ++ tilde)) = body := by
  have two : body ++ [45, 45] = body ++ [45] ++ [45] := by simp
  rcases is_tilde with rfl | rfl
  · rw [List.append_nil, two, cutRight, dropEnd_other (by decide), dropEnd_append, dropEnd_append]
  · rw [← List.append_assoc, two, cutRight, dropEnd_append, dropEnd_append, dropEnd_append]

theorem stripsWell_long (opening : front ∈ openings) (is_tilde : tilde = [] ∨ tilde = [126])
    (body : Str) :
    StripsWell (front ++ ([45, 45] ++ body ++ ([45, 45] ++ tilde) ++ [125, 125])) := by
  rw [stripsWell_iff opening, cutRight_dashes _ is_tilde]
  simp [dashes, charAt]

theorem openComment_matches (text : Str) :
    openCommentRule.pattern.Matches text ↔ text ∈ openings := by
  have bang : bytes "!" = [33] := by decide
  simp only [openCommentRule, strip, Pattern.text, Regex.Matches, bang, bytes_open,
    Regex.optional_matches, Regex.literal_matches, openings, List.mem_cons, List.not_mem_nil, or_false]
  constructor
  · rintro ⟨_, rfl, tilde, _, rfl, is_tilde, _, rfl, rfl⟩
    rcases is_tilde with rfl | rfl <;> simp
  · rintro (rfl | rfl)
    · exact ⟨_, rfl, [], _, rfl, .inl rfl, [], rfl, rfl⟩
    · exact ⟨_, rfl, [126], _, rfl, .inr rfl, [], rfl, rfl⟩

theorem openLongComment_matches (text : Str) :
    openLongCommentRule.pattern.Matches text ↔ ∃ front ∈ openings, text = front ++ [45, 45] := by
  have bang : bytes "!--" = [33, 45, 45] := by decide
  simp only [openLongCommentRule, strip, Pattern.text, Regex.Matches, bang, bytes_open,
    Regex.optional_matches, Regex.literal_matches, openings, List.mem_cons, List.not_mem_nil, or_false]
  constructor
  · rintro ⟨_, rfl, tilde, _, rfl, is_tilde, _, rfl, rfl⟩
    rcases is_tilde with rfl | rfl <;> simp
  · rintro ⟨_, rfl | rfl, rfl⟩
    · exact ⟨_, rfl, [], _, rfl, .inl rfl, [], rfl, rfl⟩
    · exact ⟨_, rfl, [126], _, rfl, .inr rfl, [], rfl, rfl⟩

/-- The text of a comment whose opening the lexer has given back, or one without an end -/
def AtComment (rest : Str) : Prop :=
  (∃ front ∈ openings, front <+: rest ∧ ¬front ++ [45, 45] <+: rest) ∨ ¬[125, 125] <:+: rest

/-- Only the top of the stack reads a short comment, and it is at one. -/
structure AtStart (starts : Starts) (rest : Str) : Prop where
  below : .com1 ∉ starts.tail
  current : starts.head? = some .com1 → AtComment rest

/-- What the rules do with the start condition of short comments -/
theorem rulesOf_com1 (starts : Starts) (below : .com1 ∉ starts.tail) : ∀ rule ∈ rulesOf starts,
    (∀ text, .com1 ∉ (rule.action text starts).state) ∨
    (starts.head? = some .mu ∧ rule = openCommentRule) ∨
    (starts.head? = some .com1 ∧ rule = defaultRule) := by
  intro rule member
  rcases List.mem_append.mp member with member | member
  · cases starts with
    | nil =>
      refine .inl fun text => ?_
      simp only [initialRules, List.mem_cons, List.not_mem_nil, or_false] at member
      rcases member with rfl | rfl | rfl | rfl | rfl | rfl <;>
        simp [escapedMuRule, contentRule, eemuRule, emuRule, muRule, braceRule, returns, escapedMu]
    | cons start starts =>
      replace below : .com1 ∉ starts := below
      cases start with
      | mu =>
        simp only [Start.rules, muRules, List.mem_cons, List.not_mem_nil, or_false] at member
        casesm* _ ∨ _
        all_goals subst rule
        all_goals first
          | exact .inl fun _ => below
          | exact .inl fun _ => List.not_mem_cons_of_ne_of_not_mem (by decide) below
          | exact .inr (.inl ⟨rfl, rfl⟩)
      | emu =>
        obtain rfl := List.mem_singleton.mp member
        exact .inl fun _ => below
      | com =>
        obtain rfl := List.mem_singleton.mp member
        exact .inl fun _ => below
      | com1 =>
        obtain rfl := List.mem_singleton.mp member
        exact .inl fun _ => below
      | raw =>
        refine .inl fun text => ?_
        simp only [Start.rules, rawRules, List.mem_cons, List.not_mem_nil, or_false] at member
        rcases member with rfl | rfl | rfl | rfl <;>
          simp [returns, endRawBlock, below]
  · obtain rfl := List.mem_singleton.mp member
    cases starts with
    | nil => simp [defaultRule]
    | cons start starts =>
      replace below : .com1 ∉ starts := below
      cases start <;> simp [defaultRule, below]

/-- The text of a short comment before its end -/
def commentBody : Pattern := .star (.chain (.optional (text "\x7d" .blank)) (noneOf [125]))

theorem comment_matches (before : Str) :
    commentRule.pattern.Matches before ↔ ∃ body, before = body ++ [125, 125] ∧ commentBody.Matches body := by
  change (Regex.chain commentBody (text "\x7d\x7d" .blank)).Matches before ↔ _
  simp only [Regex.Matches, Pattern.text, bytes_close, Regex.literal_matches]
  constructor
  · rintro ⟨body, _, rfl, matched, _, rfl, rfl⟩
    exact ⟨body, rfl, matched⟩
  · rintro ⟨body, rfl, matched⟩
    exact ⟨body, _, rfl, matched, [], rfl, rfl⟩

/-- Where there is an end, the rule for short comments matches. -/
theorem comment_ends (rest : Str) (inside : [125, 125] <:+: rest) :
    ∃ body after, rest = body ++ [125, 125] ++ after ∧ commentBody.Matches body := by
  have brace : bytes "\x7d" = [125] := by decide
  have plain (c : UInt8) (other : c ≠ 125) : (noneOf [125]).Matches [c] := ⟨c, by simp [other], rfl⟩
  generalize size : rest.length = n
  induction n using Nat.strongRecOn generalizing rest with
  | ind n ih =>
    match rest, inside with
    | [], inside => simp at inside
    | [c], inside => simpa using inside.length_le
    | c :: d :: rest, inside =>
      simp only [List.length_cons] at size
      by_cases first : c = 125
      · by_cases second : d = 125
        · exact ⟨[], rest, by simp [first, second], Regex.star_nil _⟩
        · have later : [125, 125] <:+: rest := by
            rcases List.infix_cons_iff.mp inside with here | later
            · have both := (List.cons_prefix_cons.mp here).2
              exact absurd (List.cons_prefix_cons.mp both).1.symm second
            · rcases List.infix_cons_iff.mp later with here | later
              · exact absurd (List.cons_prefix_cons.mp here).1.symm second
              · exact later
          obtain ⟨body, after, rfl, matched⟩ := ih _ (by omega) rest later rfl
          refine ⟨[c, d] ++ body, after, by simp, Regex.star_append ?_ matched⟩
          exact ⟨[c], [d], rfl, by simp [Pattern.text, brace, Regex.optional_matches, first],
            plain d second⟩
      · have later : [125, 125] <:+: d :: rest := by
          rcases List.infix_cons_iff.mp inside with here | later
          · exact absurd (List.cons_prefix_cons.mp here).1.symm first
          · exact later
        obtain ⟨body, after, same, matched⟩ := ih _ (by simp; omega) (d :: rest) later rfl
        refine ⟨[c] ++ body, after, by simp [same], Regex.star_append ?_ matched⟩
        exact ⟨[], [c], rfl, by simp [Pattern.text, brace, Regex.optional_matches], plain c first⟩

theorem mem_rulesOf_mu (current : starts.head? = some .mu) (member : rule ∈ muRules) :
    rule ∈ rulesOf starts := by
  cases starts with
  | nil => cases current
  | cons start starts =>
    obtain rfl := Option.some.inj current
    exact List.mem_append_left _ member

theorem mem_rulesOf_com1 (current : starts.head? = some .com1) : commentRule ∈ rulesOf starts := by
  cases starts with
  | nil => cases current
  | cons start starts =>
    obtain rfl := Option.some.inj current
    exact List.mem_append_left _ (List.mem_singleton.mpr rfl)

theorem atStart_next (at_start : AtStart starts rest)
    (found : Munch.next rulesOf starts rest = some (token, after, final)) : AtStart after final := by
  obtain ⟨n, rule, member, matched, maximal, -, rfl, final_eq⟩ := Munch.next_spec found
  obtain ⟨opening, size⟩ := Regex.longest_take _ matched
  rcases rulesOf_com1 starts at_start.below rule member with other | ⟨current, rfl⟩ | ⟨current, rfl⟩
  · refine ⟨fun below => other _ (List.mem_of_mem_tail below), fun current => ?_⟩
    exact absurd (List.mem_of_mem_head? current) (other _)
  · have same : final = rest := by
      rw [final_eq]
      simp [openCommentRule, turnsTo, size]
    rw [same]
    refine ⟨at_start.below, fun _ => .inl ⟨rest.take n, (openComment_matches _).mp opening,
      List.take_prefix n rest, ?_⟩⟩
    rintro ⟨after, split⟩
    have long : openLongCommentRule.pattern.Matches (rest.take n ++ [45, 45]) :=
      (openLongComment_matches _).mpr ⟨_, (openComment_matches _).mp opening, rfl⟩
    obtain ⟨m, found_long, more⟩ := Regex.le_longest _ long after
    rw [split] at found_long
    have least := maximal openLongCommentRule
      (mem_rulesOf_mu current (by simp [muRules])) m found_long
    rw [List.length_append, size] at more
    simp only [List.length_cons, List.length_nil] at more
    omega
  · have one : n = 1 := by
      cases rest with
      | nil => cases found
      | cons c rest => exact (Option.some.inj ((anyChar_longest c rest).symm.trans matched)).symm
    refine ⟨at_start.below, fun _ => .inr fun inside => ?_⟩
    have suffix : final <:+ rest := by
      rw [final_eq]
      exact List.drop_suffix ..
    obtain ⟨body, after, split, matched⟩ := comment_ends rest (inside.trans suffix.isInfix)
    have ended := (comment_matches _).mpr ⟨body, rfl, matched⟩
    obtain ⟨m, found_end, more⟩ := Regex.le_longest _ ended after
    rw [← split] at found_end
    have least := maximal commentRule (mem_rulesOf_com1 current) m found_end
    rw [List.length_append, List.length_cons, List.length_singleton] at more
    omega

/-- Only the two rules for comments return one. -/
theorem rulesOf_token (starts : Starts) : ∀ rule ∈ rulesOf starts, ∀ text token,
    (rule.action text starts).token = some token →
    (token.token = .comment → starts.head? = some .com1 ∧ rule = commentRule) ∧
    (token.token = .longComment → rule = longCommentRule) := by
  intro rule member text token found
  rcases List.mem_append.mp member with member | member
  · cases starts with
    | nil =>
      simp only [initialRules, List.mem_cons, List.not_mem_nil, or_false] at member
      rcases member with rfl | rfl | rfl | rfl | rfl | rfl <;> cases found <;>
        exact ⟨by simp, by simp⟩
    | cons start starts =>
      cases start with
      | mu =>
        simp only [Start.rules, muRules, List.mem_cons, List.not_mem_nil, or_false] at member
        casesm* _ ∨ _
        all_goals subst rule
        all_goals cases found
        all_goals exact ⟨by simp, by simp⟩
      | emu =>
        obtain rfl := List.mem_singleton.mp member
        cases found
      | com =>
        obtain rfl := List.mem_singleton.mp member
        cases found
        exact ⟨by simp, fun _ => rfl⟩
      | com1 =>
        obtain rfl := List.mem_singleton.mp member
        cases found
        exact ⟨fun _ => ⟨rfl, rfl⟩, by simp⟩
      | raw =>
        simp only [Start.rules, rawRules, List.mem_cons, List.not_mem_nil, or_false] at member
        rcases member with rfl | rfl | rfl | rfl <;> cases found
        · exact ⟨by simp, by simp⟩
        · split_ifs <;> exact ⟨by simp, by simp⟩
        · exact ⟨by simp, by simp⟩
        · exact ⟨by simp, by simp⟩
  · obtain rfl := List.mem_singleton.mp member
    cases found

/-- What a match of the lexer returns as a comment -/
theorem comment_next (at_start : AtStart starts rest)
    (found : Munch.next rulesOf starts rest = some (some token, after, final))
    (is_comment : token.token = .comment) :
    ∃ front ∈ openings, ∃ body, token.string = front ++ (body ++ [125, 125]) ∧ ¬[45, 45] <+: body := by
  obtain ⟨n, rule, member, matched, -, token_eq, -, -⟩ := Munch.next_spec found
  obtain ⟨current, rfl⟩ := (rulesOf_token starts rule member _ token token_eq.symm).1 is_comment
  obtain ⟨ended, -⟩ := Regex.longest_take _ matched
  obtain ⟨body, same, -⟩ := (comment_matches _).mp ended
  have string_eq : token.string = body ++ [125, 125] := by
    rw [← same, Option.some.inj token_eq]
    rfl
  obtain ⟨final', split⟩ := List.take_prefix n rest
  rw [same] at split
  rcases at_start.current current with ⟨front, opening, ⟨after', fronted⟩, short⟩ | none
  · have front_body : ∃ middle, body = front ++ middle := by
      rw [← fronted, List.append_assoc] at split
      rcases List.append_eq_append_iff.mp split with ⟨rest', more, brace⟩ | ⟨middle, more, -⟩
      · cases rest' with
        | nil => exact ⟨[], by simpa using more.symm⟩
        | cons c rest' =>
          obtain rfl : 125 = c := (List.cons.inj brace).1
          have inside : (125 : UInt8) ∈ front := by simp [more]
          simp only [openings, List.mem_cons, List.not_mem_nil, or_false] at opening
          rcases opening with rfl | rfl <;> exact absurd inside (by decide)
      · exact ⟨middle, more⟩
    obtain ⟨middle, rfl⟩ := front_body
    refine ⟨front, opening, middle, by rw [string_eq, List.append_assoc], ?_⟩
    rintro ⟨tail, rfl⟩
    exact short ⟨tail ++ [125, 125] ++ final', by rw [← split]; simp⟩
  · exact absurd ⟨body, final', split⟩ none

theorem longComment_matches (text : Str) (matched : longCommentRule.pattern.Matches text) :
    ∃ front ∈ openings, ∃ body tilde, (tilde = [] ∨ tilde = [126]) ∧
      text = front ++ ([45, 45] ++ body ++ ([45, 45] ++ tilde) ++ [125, 125]) := by
  have bang : bytes "!--" = [33, 45, 45] := by decide
  have dashes : bytes "--" = [45, 45] := by decide
  simp only [longCommentRule, strip, Pattern.text, Regex.Matches.eq_5, bang, dashes, bytes_open, bytes_close,
    Regex.optional_matches, Regex.literal_matches] at matched
  obtain ⟨_, rfl, front, _, rfl, is_front, _, rfl, body, _, rfl, _, _, rfl, tilde, _, rfl, is_tilde, _,
    rfl, rfl⟩ := matched
  refine ⟨[123, 123] ++ front ++ [33], ?_, body, tilde, is_tilde, by simp⟩
  rcases is_front with rfl | rfl <;> simp [openings]

theorem longComment_next (found : Munch.next rulesOf starts rest = some (some token, after, final))
    (is_comment : token.token = .longComment) :
    ∃ front ∈ openings, ∃ body tilde, (tilde = [] ∨ tilde = [126]) ∧
      token.string = front ++ ([45, 45] ++ body ++ ([45, 45] ++ tilde) ++ [125, 125]) := by
  obtain ⟨n, rule, member, matched, -, token_eq, -, -⟩ := Munch.next_spec found
  obtain rfl := (rulesOf_token starts rule member _ token token_eq.symm).2 is_comment
  rw [Option.some.inj token_eq]
  exact longComment_matches _ (Regex.longest_take _ matched).1

/-- Stripping a comment of a template cuts off its longest opening and closing, and the two cuts
do not overlap, exactly where the comment is not one of the four whose only dash belongs to both. -/
theorem strip_comment_iff (template : Str) (member : token ∈ tokens template)
    (is_comment : token.token = .comment ∨ token.token = .longComment) :
    StripsWell token.string ↔ token.string ∉ overlapping := by
  obtain ⟨_, middle, rest, last, final, emits, found⟩ := lexer.exists_of_mem_lex member
  rcases is_comment with short | long
  · have at_start : AtStart middle rest :=
      emits.invariant AtStart (fun _ _ _ _ _ inv step => atStart_next inv step) ⟨by simp, by simp⟩
    obtain ⟨front, opening, body, same, few⟩ := comment_next at_start found short
    rw [same]
    exact stripsWell_short opening body few
  · obtain ⟨front, opening, body, tilde, is_tilde, same⟩ := longComment_next found long
    rw [same]
    refine iff_of_true (stripsWell_long opening is_tilde body) ?_
    simp only [openings, List.mem_cons, List.not_mem_nil, or_false] at opening
    rcases opening with rfl | rfl <;> simp [overlapping_eq]

/-- The left cut takes the dash of `{{!-}}`, and the right cut takes it again. -/
theorem strip_comment_overlaps : ∃ template, ∃ token ∈ tokens template, token.token = .comment ∧
    stripCommentRight token.string < stripCommentLeft token.string ∧
    stripComment token.string = none ∧ ¬StripsWell token.string :=
  ⟨bytes "\x7b\x7b!-\x7d\x7d", ⟨.comment, bytes "\x7b\x7b!-\x7d\x7d"⟩, by decide, rfl,
    by decide, by decide, fun well => absurd well.ordered (by decide)⟩

theorem strip_comment_iff_long : StripsWell (bytes "\x7b\x7b~!-- a-b --\x7d\x7d") ↔
    bytes "\x7b\x7b~!-- a-b --\x7d\x7d" ∉ overlapping :=
  @strip_comment_iff ⟨.longComment, bytes "\x7b\x7b~!-- a-b --\x7d\x7d"⟩
    (bytes "x\x7b\x7b~!-- a-b --\x7d\x7dy") (by decide) (.inr rfl)

end HandlebarsC.Parser
