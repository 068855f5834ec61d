import HandlebarsC.Parser.Delimiters

/-!
What the preprocessor for delimiters makes of a template that does not switch delimiters:
a copy, but for what it adds at the very end.
-/

namespace HandlebarsC.Parser

open Machine (Ends)

/-- Whether the scanner copies what is left: outside of a tag the last byte is no backslash of its
own, and three bytes or more follow two braces. -/
def keeps : Bool → Str → Bool
  | false, 92 :: _ :: rest => keeps false rest
  | false, [92] => false
  | false, 123 :: 123 :: rest => decide (3 ≤ rest.length) && keeps true rest
  | false, _ :: rest => keeps false rest
  | true, 125 :: 125 :: rest => keeps false rest
  | true, _ :: rest => keeps true rest
  | _, [] => true

/-- The scanner in a template with braces for delimiters -/
structure Scan.Braces (scan : Scan) (tag : Bool) : Prop where
  delimOpen : scan.delimOpen = [123, 123]
  delimClose : scan.delimClose = [125, 125]
  bracket : scan.startsWithBracket = false
  state : scan.state = if tag then .tag else .text

/-- What it adds behind the text so far is no shorter than what was left, and the same just where
the scanner keeps it. -/
def Copies (tmpl : Str) (scan : Scan) (tag : Bool) (rest : Str) : Prop :=
  ∃ added, Ends (scanStep tmpl) scan (.ok (scan.newTmpl ++ added)) ∧
    rest.length ≤ added.length ∧ (added = rest ↔ keeps tag rest = true)

theorem keeps_text (other : c ≠ 92) (no_open : ¬[123, 123] <+: c :: rest) :
    keeps false (c :: rest) = keeps false rest := by
  rw [keeps.eq_def]
  split <;> simp_all

theorem keeps_tag (no_close : ¬[125, 125] <+: c :: rest) : keeps true (c :: rest) = keeps true rest := by
  rw [keeps.eq_def]
  split <;> simp_all

namespace Scan

variable {scan : Scan} {tmpl rest : Str}

theorem startsWith_two (some_c : c ≠ 0) (rest : Str) : startsWith [c, d] rest = decide ([c, d] <+: rest) := by
  match rest with
  | [] => simp [startsWith]
  | [a] =>
    by_cases same : a = c
    · subst same
      simp [startsWith, some_c]
    · simp [startsWith, same]
  | a :: b :: rest =>
    by_cases same : a = c
    · subst same
      by_cases again : b = d
      · subst again
        simp [startsWith]
      · simp [startsWith, some_c, again, Ne.symm again]
    · simp [startsWith, same, Ne.symm same]

theorem Braces.openHere (braces : scan.Braces tag) (rest : Str) :
    scan.openHere rest = (decide (5 ≤ rest.length) && decide ([123, 123] <+: rest)) := by
  rw [Scan.openHere, braces.delimOpen, braces.delimClose, startsWith_two (by decide)]
  rfl

theorem Braces.closeHere (braces : scan.Braces tag) (rest : Str) :
    scan.closeHere rest = decide ([125, 125] <+: rest) := by
  rw [Scan.closeHere, braces.delimClose, startsWith_two (by decide)]
  by_cases front : [125, 125] <+: rest
  · simpa [front] using front.length_le
  · simp [front]

theorem Braces.switchHere (braces : scan.Braces tag) (plain : ¬[123, 123, 61] <+: rest) :
    scan.switchHere rest = false := by
  rw [Scan.switchHere, braces.delimOpen, startsWith_two (by decide)]
  by_contra here
  simp only [Bool.not_eq_false, Bool.and_eq_true, decide_eq_true_eq] at here
  obtain ⟨-, ⟨behind, rfl⟩, equals⟩ := here
  cases behind with
  | nil => simp at equals
  | cons c behind =>
    obtain rfl : c = 61 := by simpa using equals
    exact plain ⟨behind, rfl⟩

theorem Braces.moved (braces : scan.Braces tag) (n : Nat) (text : Str) : (scan.moved n text).Braces tag :=
  ⟨braces.delimOpen, braces.delimClose, braces.bracket, braces.state⟩

/-- The text behind a step that copies bytes, and what the rest of the run adds -/
theorem copies_behind (turn : scanStep tmpl before = scan.behind n text rest)
    (later : rest ≠ [] → Copies tmpl (scan.moved n text) tag rest) :
    ∃ added, Ends (scanStep tmpl) before (.ok (scan.newTmpl ++ (text ++ added))) ∧
      rest.length ≤ added.length ∧ (added = rest ↔ keeps tag rest = true) := by
  unfold behind at turn
  by_cases done : rest = []
  · rw [if_pos done] at turn
    refine ⟨[], ?_, by simp [done], ?_⟩
    · rw [List.append_nil]
      exact Machine.ends_of_step turn
    · cases tag <;> simp [done, keeps]
  · rw [if_neg done] at turn
    obtain ⟨added, ends, longer, same⟩ := later done
    refine ⟨added, (Machine.ends_goes turn).mpr ?_, longer, same⟩
    rw [← List.append_assoc]
    exact ends

/-- Bytes that are copied as they are -/
theorem Copies.cons (front : Str) (turn : scanStep tmpl before = scan.behind n front rest)
    (same_text : scan.newTmpl = before.newTmpl)
    (later : rest ≠ [] → Copies tmpl (scan.moved n front) tag' rest)
    (kept : keeps tag (front ++ rest) = keeps tag' rest) : Copies tmpl before tag (front ++ rest) := by
  obtain ⟨added, ends, longer, same⟩ := copies_behind turn later
  refine ⟨front ++ added, same_text ▸ ends, by simpa using longer, ?_⟩
  rw [List.append_right_inj, kept, same]

theorem At.infix (at_rest : scan.At tmpl rest) : rest <:+: tmpl := by
  obtain ⟨before, rfl, _⟩ := at_rest.position
  exact (List.suffix_append before rest).isInfix

/-- Two braces with less than three bytes behind them: the scanner puts a backslash in front. -/
theorem copies_escaped (at_rest : scan.At tmpl (123 :: 123 :: rest)) (braces : scan.Braces false)
    (short : rest.length < 3) (no_switch : scan.switchHere (123 :: 123 :: rest) = false)
    (later : Copies tmpl (scan.moved 1 [92, 123]) false (123 :: rest)) :
    Copies tmpl scan false (123 :: 123 :: rest) := by
  have no_open : scan.openHere (123 :: 123 :: rest) = false := by
    rw [braces.openHere]
    simp
    omega
  have turn := step_plain at_rest braces.state (by decide) no_switch no_open
  have escaped : scan.escapesHere 123 (123 :: rest) = true := by simp [escapesHere, braces.bracket]
  rw [escaped] at turn
  obtain ⟨added, ends, longer, _⟩ := copies_behind turn fun _ => later
  refine ⟨[92, 123] ++ added, ends, by simp at longer ⊢; omega, ?_⟩
  have not_kept : keeps false (123 :: 123 :: rest) = false := by
    rw [keeps]
    simp
    omega
  simp [not_kept]

/-- Two braces that open a tag -/
theorem copies_open (at_rest : scan.At tmpl (123 :: 123 :: rest)) (braces : scan.Braces false)
    (long : 3 ≤ rest.length) (no_switch : scan.switchHere (123 :: 123 :: rest) = false)
    (later : ∀ {next : Scan}, next.Braces true → next.At tmpl rest → rest ≠ [] → Copies tmpl next true rest) :
    Copies tmpl scan false (123 :: 123 :: rest) := by
  have opens : scan.openHere (123 :: 123 :: rest) = true := by
    rw [braces.openHere]
    simp
    omega
  have turn := step_open at_rest braces.state (by decide) no_switch opens
  rw [braces.delimOpen] at turn
  have pair : scan.At tmpl ([123, 123] ++ rest) := at_rest
  have next_at := pair.moved [123, 123]
  have some_rest : rest ≠ [] := by
    rintro rfl
    simp at long
  obtain ⟨added, ends, longer, same⟩ :=
    @later { scan.moved 2 [123, 123] with state := .tag }
      ⟨braces.delimOpen, braces.delimClose, braces.bracket, rfl⟩ ⟨next_at.position, next_at.count⟩ some_rest
  refine ⟨[123, 123] ++ added, (Machine.ends_goes turn).mpr ?_, by simpa using longer, ?_⟩
  · rw [← List.append_assoc]
    exact ends
  · simp [keeps, long, ← same]

/-- A bracket without another one is not escaped. -/
theorem escapesHere_plain (no_open : ¬[123, 123] <+: c :: rest) : scan.escapesHere c rest = false := by
  unfold escapesHere
  cases rest with
  | nil => simp
  | cons d rest =>
    have other : ¬(c = 123 ∧ d = 123) := by
      rintro ⟨rfl, rfl⟩
      exact no_open ⟨rest, rfl⟩
    simp [other]

theorem copies (plain : ¬[123, 123, 61] <:+: tmpl) (at_rest : scan.At tmpl rest) (some_rest : rest ≠ [])
    (braces : scan.Braces tag) : Copies tmpl scan tag rest := by
  generalize size : rest.length = n
  induction n using Nat.strongRecOn generalizing scan tag rest with
  | ind n ih =>
    obtain ⟨c, rest, rfl⟩ := List.exists_cons_of_ne_nil some_rest
    have split : scan.At tmpl ([c] ++ rest) := at_rest
    rw [List.length_cons] at size
    cases tag with
    | false =>
      have state : scan.state = .text := braces.state
      have no_switch := braces.switchHere fun front => plain (front.isInfix.trans at_rest.infix)
      by_cases slash : c = 92
      · subst slash
        cases rest with
        | nil =>
          refine ⟨[92, 0], Machine.ends_of_step (step_slash_end at_rest state), by simp, ?_⟩
          simp [keeps]
        | cons d rest =>
          rw [List.length_cons] at size
          have pair : scan.At tmpl ([92, d] ++ rest) := at_rest
          refine Copies.cons [92, d] (step_slash at_rest state) rfl ?_ rfl
          exact fun some_rest => ih _ (by omega) (pair.moved _) some_rest (braces.moved ..) rfl
      · by_cases opens : [123, 123] <+: c :: rest
        · obtain ⟨rest', same⟩ := opens
          obtain ⟨rfl, behind⟩ := List.cons.inj same
          obtain rfl : 123 :: rest' = rest := behind
          have size' : rest'.length + 2 = n := size
          by_cases short : rest'.length < 3
          · refine copies_escaped at_rest braces short no_switch ?_
            exact ih _ (by simp; omega) (split.moved _) (by simp) (braces.moved ..) rfl
          · exact copies_open at_rest braces (by omega) no_switch fun opened next_at some_rest =>
              ih _ (by omega) next_at some_rest opened rfl
        · have no_open : scan.openHere (c :: rest) = false := by
            rw [braces.openHere]
            simp [opens]
          have turn := step_plain at_rest state slash no_switch no_open
          rw [escapesHere_plain opens, if_neg (by simp), List.nil_append] at turn
          refine Copies.cons [c] turn rfl ?_ (keeps_text slash opens)
          exact fun some_rest => ih _ (by omega) (split.moved _) some_rest (braces.moved ..) rfl
    | true =>
      have state : scan.state = .tag := braces.state
      by_cases closes : [125, 125] <+: c :: rest
      · have turn := step_close at_rest state (by rw [braces.closeHere]; simp [closes])
        obtain ⟨rest', same⟩ := closes
        obtain ⟨rfl, rfl⟩ := List.cons.inj same
        have size' : rest'.length + 2 = n := size
        have pair : Scan.At { scan with state := .text } tmpl ([125, 125] ++ rest') :=
          ⟨at_rest.position, at_rest.count⟩
        rw [braces.delimClose] at turn
        refine Copies.cons [125, 125] turn rfl ?_ rfl
        have next_at := pair.moved [125, 125]
        exact fun some_rest => ih _ (by omega) ⟨next_at.position, next_at.count⟩ some_rest
          ⟨braces.delimOpen, rfl, braces.bracket, rfl⟩ rfl
      · have turn := step_tag at_rest state (by rw [braces.closeHere]; simp [closes])
        refine Copies.cons [c] turn rfl ?_ (keeps_tag closes)
        exact fun some_rest => ih _ (by omega) (split.moved _) some_rest (braces.moved ..) rfl

end Scan

/-- A template without a switch: the preprocessor returns it as it is, exactly where it is kept. -/
theorem preprocess_identity_iff (tmpl : Str) (plain : ¬bytes "\x7b\x7b=" <:+: tmpl) :
    Preprocesses tmpl none none (.ok tmpl) ↔ keeps false tmpl = true := by
  by_cases none : tmpl = []
  · subst none
    simp [Preprocesses, keeps]
  · have switch : bytes "\x7b\x7b=" = [123, 123, 61] := by decide
    have braces : (Scan.start tmpl .none .none).Braces false := ⟨bytes_open, bytes_close, rfl, rfl⟩
    rw [switch] at plain
    obtain ⟨added, ends, _, same⟩ := Scan.copies plain ⟨⟨[], rfl, rfl⟩, rfl⟩ none braces
    rw [Preprocesses, if_neg none, ← same]
    constructor
    · intro whole
      exact (Except.ok.inj (whole.unique ends)).symm
    · intro whole
      rwa [whole] at ends

theorem preprocess_identity_mustache :
    Preprocesses (bytes "a \x7b\x7bb\x7d\x7d") none none (.ok (bytes "a \x7b\x7bb\x7d\x7d")) :=
  (preprocess_identity_iff (bytes "a \x7b\x7bb\x7d\x7d") (by decide +kernel)).mpr (by decide)

/-- A backslash comes in front of two braces that are too near to the end, and a NUL byte behind a
backslash at the end. -/
theorem preprocess_changes :
    Preprocesses (bytes "\x7b\x7b\x7d\x7d") none none (.ok (bytes "\\\x7b\x7b\x7d\x7d")) ∧
    ¬Preprocesses (bytes "\x7b\x7b\x7d\x7d") none none (.ok (bytes "\x7b\x7b\x7d\x7d")) ∧
    Preprocesses (bytes "a\\") none none (.ok (bytes "a\\\x00")) := by
  have escapes : Preprocesses (bytes "\x7b\x7b\x7d\x7d") none none (.ok (bytes "\\\x7b\x7b\x7d\x7d")) := by
    rw [Preprocesses, if_neg (by decide)]
    exact ⟨4, by decide⟩
  refine ⟨escapes, ?_, ?_⟩
  · intro same
    rw [Preprocesses, if_neg (by decide)] at escapes same
    have different : bytes "\\\x7b\x7b\x7d\x7d" ≠ bytes "\x7b\x7b\x7d\x7d" := by decide
    exact different (Except.ok.inj (escapes.unique same))
  · rw [Preprocesses, if_neg (by decide)]
    exact ⟨2, by decide⟩

end HandlebarsC.Parser
