import HandlebarsC.Parser.Content
import Mathlib.Data.List.Induction

/-!
Strings between double quotes: what `handlebars_string_addcslashes` writes there, and what the lexer
and `handlebars_string_stripcslashes` read.
-/

namespace HandlebarsC.Parser

open Pattern

/-- A text with a backslash in front of each double quote -/
def escaped (text : Str) : Str := addcslashes text (bytes "\"")

/-- Each quote has a backslash directly in front of it. -/
def Closed (body : Str) : Prop := ∀ front behind, body = front ++ 34 :: behind → front.getLast? = some 92

section Body

variable {body front behind : Str}

theorem escaped_nil : escaped [] = [] := rfl

theorem escaped_quote (body : Str) : escaped (34 :: body) = 92 :: 34 :: escaped body := rfl

theorem escaped_cons (other : c ≠ 34) (body : Str) : escaped (c :: body) = c :: escaped body := by
  have quote : (bytes "\"").contains c = false := by
    have listed : bytes "\"" = [34] := by decide
    simp [listed, other]
  unfold escaped addcslashes
  rw [List.flatMap_cons, quote]
  rfl

theorem escaped_append (first second : Str) : escaped (first ++ second) = escaped first ++ escaped second :=
  List.flatMap_append

theorem escaped_last (body : Str) : (escaped body).getLast? = some 92 ↔ body.getLast? = some 92 := by
  cases body using List.reverseRecOn with
  | nil => rfl
  | append_singleton front c =>
    rw [escaped_append]
    by_cases quote : c = 34
    · simp [quote, escaped_quote, escaped_nil]
    · simp [escaped_cons quote, escaped_nil]

theorem closed_nil : Closed [] := by
  intro front behind same
  simp at same

theorem Closed.cons (closed : Closed body) (other : c ≠ 34) : Closed (c :: body) := by
  intro front behind same
  cases front with
  | nil => exact absurd (List.cons.inj same).1 other
  | cons d front =>
    obtain ⟨rfl, rfl⟩ := List.cons.inj same
    have last := closed front behind rfl
    rw [List.getLast?_cons, last]
    rfl

theorem Closed.pair (closed : Closed body) : Closed (92 :: 34 :: body) := by
  intro front behind same
  cases front with
  | nil => simp at same
  | cons d front =>
    obtain ⟨rfl, second⟩ := List.cons.inj same
    cases front with
    | nil => rfl
    | cons d front =>
      obtain ⟨rfl, rfl⟩ := List.cons.inj second
      have last := closed front behind rfl
      rw [List.getLast?_cons, List.getLast?_cons, last]
      rfl

theorem Closed.of_append (closed : Closed (front ++ body)) (some_body : body.head? ≠ some 34) :
    Closed body := by
  intro before behind same
  have last := closed (front ++ before) behind (by rw [same, List.append_assoc])
  cases before with
  | nil => simp [same] at some_body
  | cons c before => simpa using last

/-- A quote behind a backslash does not end the body. -/
theorem Closed.append (closed : Closed front) (last : front.getLast? = some 92) (free : 34 ∉ behind) :
    Closed (front ++ 34 :: behind) := by
  intro before rest same
  rcases List.append_eq_append_iff.mp same with ⟨middle, rfl, later⟩ | ⟨middle, rfl, earlier⟩
  · cases middle with
    | nil => rwa [List.append_nil]
    | cons c middle =>
      obtain ⟨rfl, rfl⟩ := List.cons.inj later
      simp at free
  · cases middle with
    | nil => rwa [List.append_nil] at last
    | cons c middle =>
      obtain ⟨rfl, -⟩ := List.cons.inj earlier
      exact closed before middle rfl

theorem escaped_closed (body : Str) : Closed (escaped body) := by
  induction body with
  | nil => exact closed_nil
  | cons c body ih =>
    by_cases quote : c = 34
    · rw [quote, escaped_quote]
      exact ih.pair
    · rw [escaped_cons quote]
      exact ih.cons quote

/-- What a quoted string may hold -/
def quotedBody : Pattern := .star (.either (.literal [92, 34] .blank) (noneOf [34]))

theorem quotedBody_single (other : c ≠ 34) :
    (Regex.either (.literal [92, 34] .blank) (noneOf [34])).Matches [c] := by
  refine .inr ⟨c, ?_, rfl⟩
  simp [other]

theorem quotedBody_closed (matched : quotedBody.Matches body) : Closed body := by
  obtain ⟨parts, rfl, all⟩ := matched
  induction parts with
  | nil => exact closed_nil
  | cons part parts ih =>
    obtain ⟨first, later⟩ := List.forall_mem_cons.mp all
    rw [List.flatten_cons]
    rcases first with pair | ⟨c, other, rfl⟩
    · obtain ⟨_, rfl, rfl⟩ := (Regex.literal_matches ..).mp pair
      exact (ih later).pair
    · exact (ih later).cons (by simpa using other)

theorem Closed.quotedBody (closed : Closed body) : quotedBody.Matches body := by
  generalize size : body.length = n
  induction n using Nat.strongRecOn generalizing body with
  | ind n ih =>
    cases body with
    | nil => exact Regex.star_nil _
    | cons c body =>
      rw [List.length_cons] at size
      have other : c ≠ 34 := by
        rintro rfl
        exact nomatch closed [] body rfl
      by_cases pair : body.head? = some 34
      · cases body with
        | nil => cases pair
        | cons d body =>
          obtain rfl : d = 34 := Option.some.inj pair
          obtain rfl : c = 92 := Option.some.inj (closed [c] body rfl)
          rw [List.length_cons] at size
          have pair : (Regex.either (.literal [92, 34] .blank) (noneOf [34])).Matches [92, 34] :=
            .inl ((Regex.literal_matches ..).mpr ⟨[], rfl, rfl⟩)
          have split : Closed ([92, 34] ++ body) := closed
          refine Regex.star_append pair (ih _ (by omega) (split.of_append ?_) rfl)
          intro head
          cases body with
          | nil => cases head
          | cons c body =>
            obtain rfl : c = 34 := Option.some.inj head
            exact absurd (closed [92, 34] body rfl) (by decide)
      · have split : Closed ([c] ++ body) := closed
        exact Regex.star_append (quotedBody_single other) (ih _ (by omega) (split.of_append pair) rfl)

theorem quoted_matches (whole : Str) :
    (quoted 34).Matches whole ↔ ∃ body, whole = 34 :: (body ++ [34]) ∧ Closed body := by
  constructor
  · intro matched
    obtain ⟨_, rfl, body, _, rfl, inside, last⟩ := (Regex.literal_matches ..).mp matched
    obtain ⟨_, rfl, rfl⟩ := (Regex.literal_matches ..).mp last
    exact ⟨body, rfl, quotedBody_closed inside⟩
  · rintro ⟨body, rfl, closed⟩
    exact (Regex.literal_matches ..).mpr ⟨_, rfl, body, [34], rfl, closed.quotedBody,
      (Regex.literal_matches ..).mpr ⟨[], rfl, rfl⟩⟩

/-- The string ends at a quote without a backslash in front of it, or at the last quote. -/
theorem quoted_longest (closed : Closed body) (last : body.getLast? ≠ some 92 ∨ 34 ∉ behind) :
    (quoted 34).longest (34 :: (body ++ 34 :: behind)) = some (body.length + 2) := by
  rw [Regex.longest_eq_some_iff]
  refine ⟨⟨34 :: (body ++ [34]), behind, by simp, by simp, (quoted_matches _).mpr ⟨body, rfl, closed⟩⟩, ?_⟩
  intro before after same matched
  obtain ⟨other, rfl, closed'⟩ := (quoted_matches _).mp matched
  have split : body ++ 34 :: behind = other ++ 34 :: after := by simpa using same
  rcases List.append_eq_append_iff.mp split with ⟨middle, rfl, later⟩ | ⟨middle, rfl, _⟩
  · cases middle with
    | nil => simp
    | cons c middle =>
      obtain ⟨rfl, rfl⟩ := List.cons.inj later
      have slash := closed' body middle rfl
      rcases last with no_slash | no_quote
      · exact absurd slash no_slash
      · simp at no_quote
  · simp

/-- Behind a backslash the string goes on to a later quote. -/
theorem quoted_longest_more (closed : Closed body) (last : body.getLast? = some 92) (more : 34 ∈ behind) :
    ∃ middle rest, behind = middle ++ 34 :: rest ∧
      (quoted 34).longest (34 :: (body ++ 34 :: behind)) = some ((body ++ 34 :: middle).length + 2) := by
  obtain ⟨first, rest, rfl, free⟩ := List.eq_append_cons_of_mem more
  have matched := (quoted_matches _).mpr ⟨_, rfl, closed.append last free⟩
  have whole : 34 :: (body ++ 34 :: (first ++ 34 :: rest)) = 34 :: (body ++ 34 :: first ++ [34]) ++ rest := by
    simp
  obtain ⟨n, found, long⟩ := Regex.le_longest (quoted 34) matched rest
  rw [← whole] at found
  obtain ⟨⟨before, after, same, rfl, taken⟩, _⟩ := (Regex.longest_eq_some_iff ..).mp found
  obtain ⟨other, rfl, _⟩ := (quoted_matches _).mp taken
  simp only [List.length_cons, List.length_append, List.length_nil] at long
  have split : body ++ 34 :: (first ++ 34 :: rest) = other ++ 34 :: after := by simpa using same
  rcases List.append_eq_append_iff.mp split with ⟨middle, rfl, later⟩ | ⟨middle, rfl, _⟩
  · cases middle with
    | nil =>
      rw [List.append_nil] at long
      omega
    | cons c middle =>
      obtain ⟨rfl, behind_eq⟩ := List.cons.inj later
      have size : (34 :: (body ++ 34 :: middle ++ [34])).length = (body ++ 34 :: middle).length + 2 := by
        rw [List.length_cons, List.length_append]
        rfl
      exact ⟨middle, after, behind_eq, size ▸ found⟩
  · simp only [List.length_append] at long
    omega

end Body

section Strip

/-- An escape of a quote stands for a quote. -/
theorem count_unescape (c : UInt8) (text : Str) :
    (c :: text).count 34 ≤ [(unescape c text).1].count 34 + ((c :: text).drop (unescape c text).2).count 34 := by
  obtain ⟨some_taken, free⟩ := unescape_taken (show hexDigit 34 = none from rfl) c text
  obtain ⟨k, taken⟩ := Nat.exists_eq_succ_of_ne_zero (Nat.pos_iff_ne_zero.mp some_taken)
  rw [taken] at free
  have split : text.count 34 = (text.take k).count 34 + (text.drop k).count 34 := by
    rw [← List.count_append, List.take_append_drop]
  have none : (text.take k).count 34 = 0 := List.count_eq_zero.mpr free
  rw [taken, List.drop_succ_cons, List.count_cons, split, none]
  by_cases quote : c = 34
  · subst quote
    have same : (unescape 34 text).1 = 34 := rfl
    simp only [same, beq_self_eq_true, if_true, List.count_singleton]
    omega
  · simp [quote]

/-- No quote of a text is lost. -/
theorem count_stripFrom (text : Str) (taken : Nat) :
    (text.drop taken).count 34 ≤ (stripFrom taken text).count 34 := by
  induction text generalizing taken with
  | nil => simp
  | cons c text ih =>
    cases taken with
    | succ taken => simpa [stripFrom] using ih taken
    | zero =>
      by_cases slash : c = 92
      · subst slash
        cases text with
        | nil => simp [stripFrom]
        | cons d text =>
          have later := ih (unescape d text).2
          have lost := count_unescape d text
          rw [stripFrom_slash]
          simp only [List.drop_zero, List.count_cons, List.count_nil] at later lost ⊢
          simp only [show ((92 : UInt8) == 34) = false from rfl, Bool.false_eq_true, if_false]
          omega
      · rw [stripFrom_cons slash]
        have later := ih 0
        simp only [List.drop_zero, List.count_cons] at later ⊢
        omega

/-- The string is never longer than the text that was escaped. -/
theorem stripFrom_escaped_le (text : Str) (taken : Nat) :
    (stripFrom taken (escaped text)).length ≤ text.length := by
  induction text generalizing taken with
  | nil => cases taken <;> simp [escaped_nil, stripFrom]
  | cons c text ih =>
    by_cases quote : c = 34
    · subst quote
      rw [escaped_quote]
      rcases taken with _ | _ | taken
      · have strip : stripFrom 0 (92 :: 34 :: escaped text) = 34 :: stripFrom 0 (escaped text) := rfl
        simpa [strip] using ih 0
      · have strip : stripFrom 1 (92 :: 34 :: escaped text) = stripFrom 0 (34 :: escaped text) := rfl
        rw [strip, stripFrom_cons (by decide)]
        simpa using ih 0
      · have strip : stripFrom (taken + 2) (92 :: 34 :: escaped text) = stripFrom taken (escaped text) := rfl
        rw [strip, List.length_cons]
        exact Nat.le_succ_of_le (ih taken)
    · rw [escaped_cons quote, List.length_cons]
      cases taken with
      | succ taken => exact Nat.le_succ_of_le (ih taken)
      | zero =>
        by_cases slash : c = 92
        · subst slash
          cases behind : escaped text with
          | nil => simp [stripFrom]
          | cons d rest =>
            rw [stripFrom_slash, ← behind, List.length_cons]
            exact Nat.succ_le_succ (ih _)
        · rw [stripFrom_cons slash, List.length_cons]
          exact Nat.succ_le_succ (ih 0)

/-- Whether a quote follows every backslash; the last byte may be one where `bare` says so. -/
def slashesQuote (bare : Bool) : Str → Bool
  | [] => true
  | [c] => c != 92 || bare
  | c :: d :: rest => (c != 92 || d == 34) && slashesQuote bare (d :: rest)

theorem slashesQuote_cons (other : c ≠ 92) (text : Str) :
    slashesQuote bare (c :: text) = slashesQuote bare text := by
  cases text <;> simp [slashesQuote, other]

theorem stripcslashes_escaped_iff (text : Str) :
    stripcslashes (escaped text) = text ↔ slashesQuote true text = true := by
  unfold stripcslashes
  induction text using List.twoStepInduction with
  | nil => simp [escaped_nil, stripFrom, slashesQuote]
  | singleton c =>
    by_cases quote : c = 34
    · subst quote
      simp [slashesQuote, show stripFrom 0 (escaped [34]) = [34] from rfl]
    · simp [escaped_cons quote, escaped_nil, stripFrom, slashesQuote]
  | cons_cons c d text _ ih =>
    by_cases slash : c = 92
    · subst slash
      by_cases quote : d = 34
      · subst quote
        have strip : stripFrom 0 (escaped (92 :: 34 :: text)) = 92 :: stripFrom 0 (34 :: escaped text) := rfl
        have strip' : stripFrom 0 (escaped (34 :: text)) = 34 :: stripFrom 0 (escaped text) := rfl
        rw [strip, stripFrom_cons (by decide), ← strip']
        simpa [slashesQuote] using ih 34
      · have short : slashesQuote true (92 :: d :: text) = false := by simp [slashesQuote, quote]
        rw [short, escaped_cons (by decide), escaped_cons quote, stripFrom_slash]
        obtain ⟨some_taken, _⟩ := unescape_taken (show hexDigit 34 = none from rfl) d (escaped text)
        obtain ⟨k, taken⟩ := Nat.exists_eq_succ_of_ne_zero (Nat.pos_iff_ne_zero.mp some_taken)
        have fits := stripFrom_escaped_le text k
        rw [taken, stripFrom]
        constructor
        · intro same
          have size := congrArg List.length same
          simp only [List.length_cons] at size
          omega
        · simp
    · have strip : stripFrom 0 (escaped (c :: d :: text)) = c :: stripFrom 0 (escaped (d :: text)) := by
        by_cases quote : c = 34
        · subst quote
          rfl
        · rw [escaped_cons quote, stripFrom_cons slash]
      rw [strip, slashesQuote_cons slash, List.cons_inj_right, ih]

theorem slashesQuote_iff (bare : Bool) (text : Str) :
    slashesQuote bare text = true ↔ slashesQuote true text = true ∧ (text.getLast? = some 92 → bare = true) := by
  induction text with
  | nil => simp [slashesQuote]
  | cons c text ih =>
    cases text with
    | nil =>
      by_cases slash : c = 92
      · simp [slashesQuote, slash]
      · simp [slashesQuote, slash]
    | cons d text =>
      simp only [slashesQuote, Bool.and_eq_true, ih, List.getLast?_cons_cons]
      exact and_assoc.symm

theorem count_escaped (text : Str) : (escaped text).count 34 = text.count 34 := by
  induction text with
  | nil => rfl
  | cons c text ih =>
    by_cases quote : c = 34
    · subst quote
      simpa [escaped_quote] using ih
    · simpa [escaped_cons quote, quote] using ih

end Strip

section Next

/-- A rule that matches nothing at a character -/
def idle (c : UInt8) (rule : LexRule) : Bool := !rule.pattern.nullable && (rule.pattern.derive c).isNever

theorem idle_none {rule : LexRule} (known : idle c rule = true) (text : Str) :
    rule.pattern.longest (c :: text) = none := by
  simp only [idle, Bool.and_eq_true, Bool.not_eq_true', Regex.isNever_iff] at known
  exact Regex.longest_eq_none known.1 known.2 text

/-- A quoted string is a token: the longest match of its rule, without the quotes and the escapes. -/
theorem next_string (starts : Starts)
    (found : (quoted 34).longest (34 :: (body ++ 34 :: rest)) = some (body.length + 2)) :
    Munch.next rulesOf (.mu :: starts) (34 :: (body ++ 34 :: rest)) =
      some (some ⟨.string, stripcslashes body⟩, .mu :: starts, rest) := by
  have chosen : Munch.best (rulesOf (.mu :: starts)) (34 :: (body ++ 34 :: rest)) =
      some (body.length + 2, ⟨quoted 34, 0, returnsString .string⟩) := by
    refine Munch.best_eq (muRules.take 24)
      ((muRules.drop 25).take 11 ++ [⟨dot, 0, returns .invalid⟩, defaultRule]) ?_ found ?_
    · have all_idle : ∀ rule ∈ muRules.take 24, idle 34 rule = true := by
        rw [← List.all_eq_true]
        rfl
      intro rule member
      exact none_lt (idle_none (all_idle rule member) _)
    · have all_idle : ∀ rule ∈ (muRules.drop 25).take 11, idle 34 rule = true := by
        rw [← List.all_eq_true]
        rfl
      intro rule member
      rcases List.mem_append.mp member with member | member
      · exact none_le (idle_none (all_idle rule member) _)
      · simp only [List.mem_cons, List.not_mem_nil, or_false] at member
        intro m taken
        rcases member with rfl | rfl <;> exact Nat.le_trans (Regex.longest_char_le _ taken) (by omega)
  have whole : 34 :: (body ++ 34 :: rest) = 34 :: (body ++ [34]) ++ rest := by simp
  have size : body.length + 2 = (34 :: (body ++ [34])).length := by simp
  rw [Munch.next_of_best (by simp) chosen, whole, size]
  simp only [returnsString, Nat.sub_zero, List.take_left, List.drop_left]
  rw [← List.cons_append, List.dropLast_concat, List.tail_cons]

/-- The lexer reads back a text that was escaped, just where no backslash meets a byte that it could
escape, and none the quote at the end. -/
theorem lex_escaped_iff (starts : Starts) (text behind : Str) (more : List Token) :
    lexer.lex (.mu :: starts) (34 :: (escaped text ++ 34 :: behind)) = ⟨.string, text⟩ :: more ↔
      slashesQuote (!behind.contains 34) text = true ∧ lexer.lex (.mu :: starts) behind = more := by
  rw [slashesQuote_iff]
  by_cases further : text.getLast? = some 92 ∧ 34 ∈ behind
  · obtain ⟨last, more_quotes⟩ := further
    obtain ⟨middle, rest, rfl, found⟩ :=
      quoted_longest_more (escaped_closed text) ((escaped_last text).mpr last) more_quotes
    have whole : escaped text ++ 34 :: (middle ++ 34 :: rest) = (escaped text ++ 34 :: middle) ++ 34 :: rest := by
      simp
    rw [whole] at found
    rw [whole, Munch.Scanner.lex_next (next_string starts found)]
    constructor
    · intro same
      have read : stripcslashes (escaped text ++ 34 :: middle) = text :=
        congrArg Token.string (List.cons.inj same).1
      have kept := count_stripFrom (escaped text ++ 34 :: middle) 0
      rw [← stripcslashes, read] at kept
      simp only [List.drop_zero, List.count_append, count_escaped, List.count_cons_self] at kept
      omega
    · rintro ⟨⟨-, bare⟩, -⟩
      simp [last] at bare
  · have found : (quoted 34).longest (34 :: (escaped text ++ 34 :: behind)) = some ((escaped text).length + 2) := by
      refine quoted_longest (escaped_closed text) ?_
      rw [Ne, escaped_last]
      exact Decidable.not_and_iff_or_not.mp further
    have bare : text.getLast? = some 92 → (!behind.contains 34) = true := by
      intro last
      simpa [last] using further
    rw [Munch.Scanner.lex_next (next_string starts found), ← stripcslashes_escaped_iff]
    constructor
    · intro same
      obtain ⟨first, later⟩ := List.cons.inj same
      exact ⟨⟨congrArg Token.string first, bare⟩, later⟩
    · rintro ⟨⟨read, -⟩, later⟩
      rw [read, later]
      rfl

end Next

end HandlebarsC.Parser
