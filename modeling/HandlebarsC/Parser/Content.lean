import HandlebarsC.Parser.Lexer

/-!
The text in front of the first mustache: the content that the lexer makes of it, and the
start condition in which it comes to the braces.
-/

namespace HandlebarsC.Parser

open Pattern

/-- A text that `CONTENT` takes as a whole, and what stops it. -/
structure Stops (plain lines rest : Str) : Prop where
  all_plain : ∀ c ∈ plain, isPlain c = true
  all_lines : ∀ c ∈ lines, isLineEnd c = true
  stop_line : ∀ c ∈ rest.head?, isLineEnd c = false
  stop_plain : lines = [] → ∀ c ∈ rest.head?, isPlain c = false

theorem plain_not_line (plain : isPlain c = true) : isLineEnd c = false := by
  unfold isPlain at plain
  unfold isLineEnd
  simp only [List.contains_cons, List.contains_nil, Bool.or_false, Bool.not_or, Bool.and_eq_true,
    Bool.not_eq_true'] at plain
  simp [plain]

theorem line_not_plain (line : isLineEnd c = true) : isPlain c = false := by
  cases plain : isPlain c with
  | false => rfl
  | true => simp [plain_not_line plain] at line

theorem head_dropWhile (test : UInt8 → Bool) (whole : Str) :
    ∀ c ∈ (whole.dropWhile test).head?, test c = false := by
  intro c member
  have known := List.head?_dropWhile_not test whole
  rw [Option.mem_def.mp member] at known
  simpa using known

theorem exists_stops (whole : Str) : ∃ plain lines rest, whole = plain ++ (lines ++ rest) ∧
    Stops plain lines rest := by
  refine ⟨whole.takeWhile isPlain, (whole.dropWhile isPlain).takeWhile isLineEnd,
    (whole.dropWhile isPlain).dropWhile isLineEnd, by simp, ?_⟩
  refine ⟨List.all_eq_true.mp List.all_takeWhile, List.all_eq_true.mp List.all_takeWhile,
    head_dropWhile _ _, ?_⟩
  intro none
  have whole_rest : (whole.dropWhile isPlain).dropWhile isLineEnd = whole.dropWhile isPlain := by
    conv_rhs => rw [← List.takeWhile_append_dropWhile (p := isLineEnd) (l := whole.dropWhile isPlain)]
    rw [none, List.nil_append]
  rw [whole_rest]
  exact head_dropWhile _ _

theorem lines_derive (line : isLineEnd c = true) :
    (Regex.star (.char isLineEnd)).derive c = .star (.char isLineEnd) := by
  simp [Regex.derive, Regex.follow, line]

theorem lines_derive_never (other : isLineEnd c = false) :
    (Regex.star (.char isLineEnd)).derive c = .never := by
  simp [Regex.derive, Regex.follow, other]

theorem content_plain (plain : isPlain c = true) : content.derive c = content := by
  simp [content, Regex.derive, Regex.follow, Regex.choose, Regex.nullable, plain, plain_not_line plain]

theorem content_line (line : isLineEnd c = true) : content.derive c = .star (.char isLineEnd) := by
  simp [content, Regex.derive, Regex.follow, Regex.choose, Regex.nullable, line, line_not_plain line]

theorem content_never (other : isPlain c = false) (stop : isLineEnd c = false) :
    content.derive c = .never := by
  simp [content, Regex.derive, Regex.follow, Regex.choose, Regex.nullable, other, stop]

variable {plain lines rest : Str}

/-- An expression that reads a text as `CONTENT` does -/
theorem Stops.longest_runs (stops : Stops plain lines rest) {regex : Pattern} (behind : Pattern)
    (same : ∀ c, isPlain c = true → regex.derive c = regex)
    (turn : ∀ c, isLineEnd c = true → regex.derive c = behind)
    (kept : ∀ c, isLineEnd c = true → behind.derive c = behind)
    (null : regex.nullable = behind.nullable) :
    regex.longest (plain ++ (lines ++ rest)) = ((if lines = [] then regex else behind).longest rest).map
      (· + (lines.length + plain.length)) := by
  rw [Regex.longest_loop regex plain _ fun c member => same c (stops.all_plain c member)]
  cases lines with
  | nil => simp
  | cons c lines =>
    have line := turn c (stops.all_lines c List.mem_cons_self)
    rw [List.cons_append, Regex.longest_step regex c _ (by rw [line, null]; exact id), line,
      Regex.longest_loop behind lines _ fun c member =>
        kept c (stops.all_lines c (List.mem_cons_of_mem _ member))]
    simp only [reduceCtorEq, if_false, Option.map_map, List.length_cons]
    congr 1
    funext n
    simp only [Function.comp_apply]
    omega

/-- What a rule that starts with `CONTENT` finds behind the content -/
theorem Stops.longest_chain (stops : Stops plain lines rest) (regex : Pattern)
    (null : regex.nullable = false) (dead : ∀ c, isPlain c = true ∨ isLineEnd c = true →
      regex.derive c = .never) :
    (Regex.chain content regex).longest (plain ++ (lines ++ rest)) =
      (regex.longest rest).map (· + (lines.length + plain.length)) := by
  have nullable : (Regex.star (.char isLineEnd)).nullable = true := rfl
  have step (first : Pattern) (c : UInt8) (is_null : first.nullable = true) :
      (Regex.chain first regex).derive c = ((first.derive c).follow regex).choose (regex.derive c) := by
    simp [Regex.derive, is_null]
  rw [stops.longest_runs (.chain (.star (.char isLineEnd)) regex)]
  · congr 1
    split_ifs with none
    · refine Regex.longest_congr (by simp [Regex.nullable, null]) ?_
      intro c head
      rw [step _ _ rfl, content_never (stops.stop_plain none c head) (stops.stop_line c head)]
      rfl
    · refine Regex.longest_congr (by simp [Regex.nullable, null]) ?_
      intro c head
      rw [step _ _ rfl, lines_derive_never (stops.stop_line c head)]
      rfl
  · intro c is_plain
    rw [step _ _ rfl, content_plain is_plain, dead c (.inl is_plain)]
    rfl
  · intro c is_line
    rw [step _ _ rfl, content_line is_line, dead c (.inr is_line)]
    rfl
  · intro c is_line
    rw [step _ _ rfl, lines_derive is_line, dead c (.inr is_line)]
    rfl
  · simp [Regex.nullable, null]

theorem Stops.longest_content (stops : Stops plain lines rest) :
    content.longest (plain ++ (lines ++ rest)) = some (lines.length + plain.length) := by
  rw [stops.longest_runs _ (fun _ => content_plain) (fun _ => content_line) (fun _ => lines_derive) rfl]
  have nothing : (if lines = [] then content else .star (.char isLineEnd)).longest rest = some 0 := by
    split_ifs with none
    · exact Regex.longest_eq_zero rfl fun c head =>
        content_never (stops.stop_plain none c head) (stops.stop_line c head)
    · exact Regex.longest_eq_zero rfl fun c head => lines_derive_never (stops.stop_line c head)
  rw [nothing]
  simp

theorem longest_thirdBrace (other : ∀ c ∈ rest.head?, c ≠ 123) : thirdBrace.longest rest = some 0 := by
  refine Regex.longest_eq_zero rfl fun c head => ?_
  have different : (c == 123) = false := by simp [other c head]
  simp [thirdBrace, Regex.optional, Regex.literal, Regex.derive, Regex.choose, Regex.follow, different]

theorem longest_mu (other : ∀ c ∈ rest.head?, c ≠ 123) : mu.longest (123 :: 123 :: rest) = some 2 := by
  rw [Regex.longest_of_derive _ rfl, Regex.longest_of_derive _ rfl]
  have behind : (mu.derive 123).derive 123 = thirdBrace := rfl
  rw [behind, longest_thirdBrace other]
  rfl

theorem longest_emu (other : ∀ c ∈ rest.head?, c ≠ 123) :
    emu.longest (92 :: 123 :: 123 :: rest) = some 3 := by
  have behind : emu.derive 92 = mu := rfl
  rw [Regex.longest_of_derive _ rfl, behind, longest_mu other]
  rfl

theorem longest_eemu (other : ∀ c ∈ rest.head?, c ≠ 123) :
    eemu.longest (92 :: 92 :: 123 :: 123 :: rest) = some 4 := by
  have behind : eemu.derive 92 = emu := rfl
  rw [Regex.longest_of_derive _ rfl, behind, longest_emu other]
  rfl

/-- Whatever the expression matches starts with the text. -/
def Fronted (front : Str) (regex : Pattern) : Prop := ∀ whole, regex.Matches whole → front <+: whole

theorem Fronted.longest_none (fronted : Fronted front regex) (other : ¬front <+: whole) :
    regex.longest whole = none := by
  rw [Regex.longest_eq_none_iff]
  intro before after same matched
  exact other ((fronted before matched).trans ⟨after, same.symm⟩)

theorem literal_fronted (front : Str) (regex : Pattern) : Fronted front (.literal front regex) := by
  intro whole matched
  obtain ⟨after, rfl, _⟩ := (Regex.literal_matches ..).mp matched
  exact ⟨after, rfl⟩

theorem chain_fronted (fronted : Fronted front regex) (next : Pattern) :
    Fronted front (.chain regex next) := by
  rintro _ ⟨before, after, rfl, matched, _⟩
  exact (fronted before matched).trans ⟨after, rfl⟩

theorem mu_fronted : Fronted [123, 123] mu := literal_fronted [123, 123] thirdBrace

theorem emu_fronted : Fronted [92, 123, 123] emu := literal_fronted [92, 123, 123] thirdBrace

theorem eemu_fronted : Fronted [92, 92, 123, 123] eemu := literal_fronted [92, 92, 123, 123] thirdBrace

/-- Two rules take single characters only. -/
theorem single_le (positive : 1 ≤ n) : ∀ rule ∈ [braceRule, defaultRule], ∀ m,
    rule.pattern.longest whole = some m → m ≤ n := by
  simp only [List.forall_mem_cons, List.not_mem_nil, false_implies, implies_true, and_true]
  exact ⟨fun m found => Nat.le_trans (Regex.longest_char_le _ found) positive,
    fun m found => Nat.le_trans (Regex.longest_char_le _ found) positive⟩

theorem none_le {rule : LexRule} {whole : Str} (none : rule.pattern.longest whole = none) :
    ∀ m, rule.pattern.longest whole = some m → m ≤ n := by
  intro m found
  rw [none] at found
  cases found

theorem none_lt {rule : LexRule} {whole : Str} (none : rule.pattern.longest whole = none) :
    ∀ m, rule.pattern.longest whole = some m → m < n := by
  intro m found
  rw [none] at found
  cases found

theorem some_le {rule : LexRule} {whole : Str} (same : rule.pattern.longest whole = some k) (le : k ≤ n) :
    ∀ m, rule.pattern.longest whole = some m → m ≤ n := by
  intro m found
  exact Option.some.inj (same.symm.trans found) ▸ le

theorem some_lt {rule : LexRule} {whole : Str} (same : rule.pattern.longest whole = some k) (lt : k < n) :
    ∀ m, rule.pattern.longest whole = some m → m < n := by
  intro m found
  exact Option.some.inj (same.symm.trans found) ▸ lt

/-- The rules that start with a backslash or a brace -/
theorem other_dead {c : UInt8} (takes : isPlain c = true ∨ isLineEnd c = true) :
    c ≠ 92 ∧ c ≠ 123 := by
  constructor <;> rintro rfl <;> exact absurd takes (by decide)

theorem eemu_dead {c : UInt8} (takes : isPlain c = true ∨ isLineEnd c = true) :
    eemu.derive c = .never := by
  have different : (c == 92) = false := by simp [(other_dead takes).1]
  simp [eemu, Regex.literal, Regex.derive, Regex.follow, Regex.nullable, different]

/-- At a text that `CONTENT` takes a part of, no rule with a fixed start matches. -/
theorem Stops.fixed_none (stops : Stops plain lines rest) (some_content : plain ++ lines ≠ [])
    (fronted : Fronted (d :: front) regex) (fixed : d = 92 ∨ d = 123) :
    regex.longest (plain ++ (lines ++ rest)) = none := by
  refine fronted.longest_none ?_
  rintro ⟨after, same⟩
  have takes : ∀ c ∈ plain ++ lines, isPlain c = true ∨ isLineEnd c = true := by
    intro c member
    rcases List.mem_append.mp member with member | member
    · exact .inl (stops.all_plain c member)
    · exact .inr (stops.all_lines c member)
  rw [← List.append_assoc] at same
  cases whole : plain ++ lines with
  | nil => exact some_content whole
  | cons c behind =>
    rw [whole] at same takes
    obtain rfl : d = c := (List.cons.inj same).1
    have dead := other_dead (takes d List.mem_cons_self)
    exact fixed.elim dead.1 dead.2

theorem Stops.next_content (stops : Stops plain lines rest) (some_content : plain ++ lines ≠ [])
    (unescaped : ¬[92, 92, 123, 123] <+: rest) :
    Munch.next rulesOf [] (plain ++ (lines ++ rest)) =
      some (some ⟨.content, plain ++ lines⟩, [], rest) := by
  have size : lines.length + plain.length = (plain ++ lines).length := by
    rw [List.length_append, Nat.add_comm]
  have positive : 1 ≤ lines.length + plain.length := size ▸ List.length_pos_of_ne_nil some_content
  have escaped_none : escapedMuRule.pattern.longest (plain ++ (lines ++ rest)) = none := by
    rw [escapedMuRule, stops.longest_chain eemu rfl fun _ => eemu_dead,
      eemu_fronted.longest_none unescaped]
    rfl
  have chosen : Munch.best (rulesOf []) (plain ++ (lines ++ rest)) =
      some (lines.length + plain.length, contentRule) := by
    refine Munch.best_eq [escapedMuRule] [eemuRule, emuRule, muRule, braceRule, defaultRule] ?_
      stops.longest_content ?_
    · simpa using none_lt escaped_none
    · simp only [List.forall_mem_cons]
      refine ⟨none_le ?_, none_le ?_, none_le ?_, by simpa using single_le positive⟩
      · exact stops.fixed_none some_content eemu_fronted (.inl rfl)
      · exact stops.fixed_none some_content (chain_fronted emu_fronted content) (.inl rfl)
      · exact stops.fixed_none some_content mu_fronted (.inr rfl)
  rw [Munch.next_of_best (by simp_all) chosen, size, ← List.append_assoc]
  simp only [contentRule, returns, Nat.sub_zero, List.take_left, List.drop_left]

theorem Stops.next_escaped (stops : Stops plain lines (92 :: 92 :: 123 :: 123 :: rest))
    (other : ∀ c ∈ rest.head?, c ≠ 123) :
    Munch.next rulesOf [] (plain ++ (lines ++ 92 :: 92 :: 123 :: 123 :: rest)) =
      some (some ⟨.content, plain ++ lines ++ [92]⟩, [.mu], 123 :: 123 :: rest) := by
  have size : lines.length + plain.length = (plain ++ lines).length := by
    rw [List.length_append, Nat.add_comm]
  have chosen : Munch.best (rulesOf []) (plain ++ (lines ++ 92 :: 92 :: 123 :: 123 :: rest)) =
      some (4 + (lines.length + plain.length), escapedMuRule) := by
    refine Munch.best_eq [] [contentRule, eemuRule, emuRule, muRule, braceRule, defaultRule]
      (by simp) ?_ ?_
    · rw [escapedMuRule, stops.longest_chain eemu rfl fun _ => eemu_dead, longest_eemu other]
      rfl
    · simp only [List.forall_mem_cons]
      refine ⟨some_le stops.longest_content (by omega), ?_, ?_, ?_, by
        simpa using single_le (by omega : 1 ≤ 4 + (lines.length + plain.length))⟩
      · by_cases some_content : plain ++ lines = []
        · obtain ⟨rfl, rfl⟩ := List.append_eq_nil_iff.mp some_content
          exact some_le (longest_eemu other) (by omega)
        · exact none_le (stops.fixed_none some_content eemu_fronted (.inl rfl))
      · refine none_le ?_
        by_cases some_content : plain ++ lines = []
        · obtain ⟨rfl, rfl⟩ := List.append_eq_nil_iff.mp some_content
          exact (chain_fronted emu_fronted content).longest_none (by simp)
        · exact stops.fixed_none some_content (chain_fronted emu_fronted content) (.inl rfl)
      · refine none_le ?_
        by_cases some_content : plain ++ lines = []
        · obtain ⟨rfl, rfl⟩ := List.append_eq_nil_iff.mp some_content
          exact mu_fronted.longest_none (by simp)
        · exact stops.fixed_none some_content mu_fronted (.inr rfl)
  rw [Munch.next_of_best (by simp) chosen, size, ← List.append_assoc]
  generalize plain ++ lines = front
  have matched : (front ++ 92 :: 92 :: 123 :: 123 :: rest).take (4 + front.length) =
      front ++ [92, 92, 123, 123] := by
    rw [Nat.add_comm, List.take_length_add_append]
    rfl
  have left : (front ++ 92 :: 92 :: 123 :: 123 :: rest).drop (4 + front.length - 2) =
      123 :: 123 :: rest := by
    rw [show 4 + front.length - 2 = front.length + 2 by omega, List.drop_length_add_append]
    rfl
  have kept : (front ++ [92, 92, 123, 123]).take (front.length + 1) = front ++ [92] := by
    rw [List.take_length_add_append]
    rfl
  simp [escapedMuRule, escapedMu, matched, left, kept]

/-- Where no content starts, `CONTENT` finds nothing. -/
theorem stops_brace {c : UInt8} (listed : c = 92 ∨ c = 123) (rest : Str) : Stops [] [] (c :: rest) := by
  constructor
  · simp
  · simp
  · rcases listed with rfl | rfl <;> simp [isLineEnd]
  · rcases listed with rfl | rfl <;> simp [isPlain]

/-- At a single brace or backslash no rule takes more than it. -/
theorem next_single {c : UInt8} (listed : c = 92 ∨ c = 123)
    (eemu_none : ¬[92, 92, 123, 123] <+: c :: rest) (emu_none : ¬[92, 123, 123] <+: c :: rest)
    (mu_none : ¬[123, 123] <+: c :: rest) :
    Munch.next rulesOf [] (c :: rest) = some (some ⟨.content, [c]⟩, [], rest) := by
  have stops := stops_brace listed rest
  have escaped_none : escapedMuRule.pattern.longest (c :: rest) = none := by
    have chained := stops.longest_chain eemu rfl fun _ => eemu_dead
    rw [eemu_fronted.longest_none eemu_none] at chained
    exact chained
  have chosen : Munch.best (rulesOf []) (c :: rest) = some (1, braceRule) := by
    refine Munch.best_eq [escapedMuRule, contentRule, eemuRule, emuRule, muRule] [defaultRule] ?_ ?_ ?_
    · simp only [List.forall_mem_cons]
      refine ⟨none_lt escaped_none, some_lt stops.longest_content (by simp), none_lt ?_, none_lt ?_,
        none_lt ?_, by simp⟩
      · exact eemu_fronted.longest_none eemu_none
      · exact (chain_fronted emu_fronted content).longest_none emu_none
      · exact mu_fronted.longest_none mu_none
    · have accepted : ([92, 123, 125] : Str).contains c = true := by
        rcases listed with rfl | rfl <;> rfl
      exact Regex.longest_char _ accepted rest
    · simpa using some_le (anyChar_longest c rest) (Nat.le_refl 1)
  rw [Munch.next_of_best (by simp) chosen]
  rfl

theorem Stops.next_emu (stops : Stops plain lines rest)
    (other : ∀ c ∈ (plain ++ (lines ++ rest)).head?, c ≠ 123) :
    Munch.next rulesOf [] (92 :: 123 :: 123 :: (plain ++ (lines ++ rest))) =
      some (some ⟨.content, 123 :: 123 :: (plain ++ lines)⟩, [.emu], rest) := by
  have size : lines.length + plain.length = (plain ++ lines).length := by
    rw [List.length_append, Nat.add_comm]
  have found : emuRule.pattern.longest (92 :: 123 :: 123 :: (plain ++ (lines ++ rest))) =
      some (lines.length + plain.length + 3) := by
    have behind : ((emuRule.pattern.derive 92).derive 123).derive 123 = .chain thirdBrace content := rfl
    have same : (Regex.chain thirdBrace content).longest (plain ++ (lines ++ rest)) =
        content.longest (plain ++ (lines ++ rest)) := by
      refine Regex.longest_congr rfl fun c head => ?_
      have different : (c == 123) = false := by simp [other c head]
      have dead : thirdBrace.derive c = .never := by
        simp [thirdBrace, Regex.optional, Regex.literal, Regex.derive, Regex.choose, Regex.follow,
          different]
      have null : thirdBrace.nullable = true := rfl
      rw [Regex.derive, if_pos null, dead]
      rfl
    rw [Regex.longest_of_derive _ rfl, Regex.longest_of_derive _ rfl, Regex.longest_of_derive _ rfl,
      behind, same, stops.longest_content]
    rfl
  have at_brace := stops_brace (.inl rfl) (123 :: 123 :: (plain ++ (lines ++ rest)))
  have escaped_none : escapedMuRule.pattern.longest (92 :: 123 :: 123 :: (plain ++ (lines ++ rest))) =
      none := by
    have chained := at_brace.longest_chain eemu rfl fun _ => eemu_dead
    rw [eemu_fronted.longest_none (by simp)] at chained
    exact chained
  have chosen : Munch.best (rulesOf []) (92 :: 123 :: 123 :: (plain ++ (lines ++ rest))) =
      some (lines.length + plain.length + 3, emuRule) := by
    refine Munch.best_eq [escapedMuRule, contentRule, eemuRule] [muRule, braceRule, defaultRule] ?_
      found ?_
    · simp only [List.forall_mem_cons]
      exact ⟨none_lt escaped_none, some_lt at_brace.longest_content (by simp),
        none_lt (eemu_fronted.longest_none (by simp)), by simp⟩
    · simp only [List.forall_mem_cons]
      exact ⟨none_le (mu_fronted.longest_none (by simp)), by
        simpa using single_le (by omega : 1 ≤ lines.length + plain.length + 3)⟩
  rw [Munch.next_of_best (by simp) chosen, size, ← List.append_assoc]
  generalize plain ++ lines = front
  simp [emuRule]

theorem next_mu (other : ∀ c ∈ rest.head?, c ≠ 123) :
    Munch.next rulesOf [] (123 :: 123 :: rest) = some (none, [.mu], 123 :: 123 :: rest) := by
  have at_brace := stops_brace (.inr rfl) (123 :: rest)
  have escaped_none : escapedMuRule.pattern.longest (123 :: 123 :: rest) = none := by
    have chained := at_brace.longest_chain eemu rfl fun _ => eemu_dead
    rw [eemu_fronted.longest_none (by simp)] at chained
    exact chained
  have chosen : Munch.best (rulesOf []) (123 :: 123 :: rest) = some (2, muRule) := by
    refine Munch.best_eq [escapedMuRule, contentRule, eemuRule, emuRule] [braceRule, defaultRule] ?_
      (longest_mu other) ?_
    · simp only [List.forall_mem_cons]
      exact ⟨none_lt escaped_none, some_lt at_brace.longest_content (by simp),
        none_lt (eemu_fronted.longest_none (by simp)),
        none_lt ((chain_fronted emu_fronted content).longest_none (by simp)), by simp⟩
    · simpa using single_le (by omega : 1 ≤ 2)
  rw [Munch.next_of_best (by simp) chosen]
  rfl

/-- Behind an escaped brace the lexer goes back to text. -/
theorem next_unescaped (other : c ≠ 10) (rest : Str) :
    Munch.next rulesOf [.emu] (c :: rest) = some (none, [], c :: rest) := by
  have found : dot.longest (c :: rest) = some 1 := Regex.longest_char _ (by simp [other]) rest
  have chosen : Munch.best (rulesOf [.emu]) (c :: rest) =
      some (1, ⟨dot, 0, fun text starts => ⟨text.length, starts.tail, none⟩⟩) := by
    refine Munch.best_eq [] [defaultRule] (by simp) found ?_
    simpa using some_le (anyChar_longest c rest) (Nat.le_refl 1)
  rw [Munch.next_of_best (by simp) chosen]
  rfl

def contents (pieces : List Str) : List Token := pieces.map fun piece => ⟨.content, piece⟩

/-- From the initial state the lexer returns a text as contents, and comes to a state. -/
def Reads (whole output : Str) (starts : Starts) (rest : Str) : Prop :=
  ∃ pieces : List Str, pieces.flatten = output ∧ lexer.Emits [] whole (contents pieces) starts rest

theorem Reads.cons (first : Munch.next rulesOf [] whole = some (some ⟨.content, piece⟩, [], middle))
    (later : Reads middle output starts rest) : Reads whole (piece ++ output) starts rest := by
  obtain ⟨pieces, rfl, emits⟩ := later
  exact ⟨piece :: pieces, rfl, .step first emits⟩

theorem Reads.last (first : Munch.next rulesOf [] whole = some (some ⟨.content, piece⟩, starts, rest)) :
    Reads whole piece starts rest := by
  have step : lexer.Emits [] whole (some ⟨.content, piece⟩ : Option Token).toList starts rest :=
    .single first
  exact ⟨[piece], by simp, step⟩

/-- What the lexer does with the first braces of a text, which `k` backslashes are in front of. -/
def Ends (r : Str) (k : Nat) (whole output : Str) : Prop :=
  match k with
  | 0 => Reads whole output [.mu] (123 :: 123 :: r)
  | 1 => ∃ before after, r = before ++ after ∧ (∀ c ∈ after.head?, c ≠ 10) ∧
      Reads whole (output ++ 123 :: 123 :: before) [.emu] after
  | k + 2 => Reads whole (output ++ List.replicate (k + 1) 92) [.mu] (123 :: 123 :: r)

theorem Ends.cons (first : Munch.next rulesOf [] whole = some (some ⟨.content, piece⟩, [], middle))
    (later : Ends r k middle output) : Ends r k whole (piece ++ output) := by
  match k with
  | 0 => exact Reads.cons first later
  | 1 =>
    obtain ⟨before, after, split, head, reads⟩ := later
    exact ⟨before, after, split, head, List.append_assoc .. ▸ Reads.cons first reads⟩
  | k + 2 =>
    change Reads _ _ _ _
    rw [List.append_assoc]
    exact Reads.cons first later

theorem line_of_ten : isLineEnd 10 = true := rfl

/-- Backslashes at the braces: the last one or two belong to them, the others are text. -/
theorem ends_backslashes (other : ∀ c ∈ r.head?, c ≠ 123) (k : Nat) :
    Ends r k (List.replicate k 92 ++ 123 :: 123 :: r) [] := by
  match k with
  | 0 =>
    have step : lexer.Emits [] (123 :: 123 :: r) (none : Option Token).toList [.mu] (123 :: 123 :: r) :=
      .single (next_mu other)
    exact ⟨[], rfl, step⟩
  | 1 =>
    obtain ⟨plain, lines, rest, rfl, stops⟩ := exists_stops r
    refine ⟨plain ++ lines, rest, by simp, ?_, .last (stops.next_emu other)⟩
    rintro c head rfl
    exact absurd line_of_ten (by simp [stops.stop_line _ head])
  | k + 2 =>
    induction k with
    | zero => exact .last ((stops_brace (.inl rfl) _).next_escaped other)
    | succ k ih =>
      have single : Munch.next rulesOf [] (92 :: (List.replicate (k + 2) 92 ++ 123 :: 123 :: r)) =
          some (some ⟨.content, [92]⟩, [], List.replicate (k + 2) 92 ++ 123 :: 123 :: r) := by
        refine next_single (.inl rfl) ?_ ?_ ?_ <;> simp [List.replicate_succ]
      have reads : Reads _ ([92] ++ ([] ++ List.replicate (k + 1) 92)) _ _ := Reads.cons single ih
      exact reads

/-- A text in front of the first braces -/
structure Before (r : Str) (k : Nat) (t : Str) : Prop where
  nul_free : 0 ∉ t
  last : t.getLast? ≠ some 92
  first : ∀ before after, t ++ (List.replicate k 92 ++ 123 :: 123 :: r) = before ++ 123 :: 123 :: after →
    t.length + k ≤ before.length

theorem Before.tail (known : Before r k (front ++ t)) : Before r k t := by
  refine ⟨fun member => known.nul_free (List.mem_append_right _ member), ?_, ?_⟩
  · intro last
    apply known.last
    rw [List.getLast?_append, last]
    rfl
  · intro before after same
    have bound := known.first (front ++ before) after (by rw [List.append_assoc, same, List.append_assoc])
    simp only [List.length_append] at bound
    omega

/-- Where the text is not used up, nothing but it comes before the braces. -/
theorem Before.not_braces (known : Before r k t) (some_text : t ≠ []) (j : Nat) :
    ¬List.replicate j 92 ++ [123, 123] <+: t ++ (List.replicate k 92 ++ 123 :: 123 :: r) := by
  rintro ⟨after, same⟩
  have bound := known.first (List.replicate j 92) after (by simpa using same.symm)
  have slashes : t <+: List.replicate j 92 := by
    have front : List.replicate j 92 <+: t ++ (List.replicate k 92 ++ 123 :: 123 :: r) :=
      ⟨[123, 123] ++ after, by rw [← same, List.append_assoc]⟩
    refine List.prefix_of_prefix_length_le (List.prefix_append ..) front ?_
    rw [List.length_replicate] at bound ⊢
    omega
  have last := List.getLast_mem some_text
  have slash := List.eq_of_mem_replicate (slashes.subset last)
  exact known.last (by rw [List.getLast?_eq_getLast_of_ne_nil some_text, slash])

theorem Stops.append (stops : Stops plain lines rest)
    (dead : ∀ c ∈ more.head?, isLineEnd c = false ∧ isPlain c = false) :
    Stops plain lines (rest ++ more) := by
  cases rest with
  | nil => exact ⟨stops.all_plain, stops.all_lines, fun c head => (dead c head).1,
      fun _ c head => (dead c head).2⟩
  | cons d rest => exact ⟨stops.all_plain, stops.all_lines, stops.stop_line, stops.stop_plain⟩

theorem dead_slashes (r : Str) (k : Nat) : ∀ c ∈ (List.replicate k (92 : UInt8) ++ 123 :: 123 :: r).head?,
    isLineEnd c = false ∧ isPlain c = false := by
  cases k with
  | zero => simp [isLineEnd, isPlain]
  | succ k => simp [List.replicate_succ, isLineEnd, isPlain]

/-- The rule for two backslashes does not take a run of another length. -/
theorem slashes_unescaped (other : k ≠ 2) (r : Str) :
    ¬[92, 92, 123, 123] <+: List.replicate k 92 ++ 123 :: 123 :: r := by
  match k with
  | 0 => simp
  | 1 => simp
  | 2 => exact absurd rfl other
  | k + 3 => simp [List.replicate_succ]

theorem ends_text (other : ∀ c ∈ r.head?, c ≠ 123) (known : Before r k t) :
    Ends r k (t ++ (List.replicate k 92 ++ 123 :: 123 :: r)) t := by
  generalize size : t.length = n
  induction n using Nat.strongRecOn generalizing t with
  | ind n ih =>
    cases t with
    | nil => exact ends_backslashes other k
    | cons c t =>
      have some_text : c :: t ≠ [] := List.cons_ne_nil c t
      have later : ∀ front tail, c :: t = front ++ tail → front ≠ [] →
          Ends r k (tail ++ (List.replicate k 92 ++ 123 :: 123 :: r)) tail := by
        intro front tail same some_front
        have shorter := List.length_pos_of_ne_nil some_front
        have lengths := congrArg List.length same
        rw [List.length_append] at lengths
        exact ih tail.length (by omega) (Before.tail (same ▸ known)) rfl
      by_cases takes : isPlain c = true ∨ isLineEnd c = true
      · obtain ⟨plain, lines, rest, same, stops⟩ := exists_stops (c :: t)
        have stops_whole := stops.append (dead_slashes r k)
        have some_content : plain ++ lines ≠ [] := by
          intro none
          obtain ⟨rfl, rfl⟩ := List.append_eq_nil_iff.mp none
          obtain rfl : c :: t = rest := same
          simp [stops.stop_line c rfl, stops.stop_plain rfl c rfl] at takes
        have parts : c :: t = plain ++ lines ++ rest := by rw [same, List.append_assoc]
        by_cases escaped : rest = [] ∧ k = 2
        · obtain ⟨rfl, rfl⟩ := escaped
          have step := Stops.next_escaped stops_whole other
          have last : Reads _ (plain ++ lines ++ [92]) [.mu] (123 :: 123 :: r) := .last step
          rw [parts, List.append_nil, List.append_assoc]
          exact last
        · have unescaped : ¬[92, 92, 123, 123] <+: rest ++ (List.replicate k 92 ++ 123 :: 123 :: r) := by
            by_cases some_rest : rest = []
            · rw [some_rest]
              exact slashes_unescaped (fun two => escaped ⟨some_rest, two⟩) r
            · exact (Before.tail (parts ▸ known)).not_braces some_rest 2
          have step := stops_whole.next_content some_content unescaped
          have ends := Ends.cons step (later _ rest parts some_content)
          rw [parts]
          simp only [List.append_assoc] at ends ⊢
          exact ends
      · have listed : c = 92 ∨ c = 123 := by
          have not_nul : c ≠ 0 := fun nul => known.nul_free (nul ▸ List.mem_cons_self)
          obtain ⟨not_plain, not_line⟩ := not_or.mp takes
          simp [isPlain] at not_plain
          simp [isLineEnd] at not_line
          tauto
        have none := known.not_braces some_text
        have ends := Ends.cons (next_single listed (none 2) (none 1) (none 0))
          (later [c] t rfl (by simp))
        exact ends

/-- The lexer returns the text in front of the first braces as content, without a loss. No backslash
in front of them: it goes on with the mustache. Two or more: it drops one of them, and goes on
with the mustache. A single one: it drops it, and goes on in the text behind the braces. -/
theorem content_before_mustache (t r : Str) (k : Nat) (nul_free : 0 ∉ t) (last : t.getLast? ≠ some 92)
    (brace : r.head? ≠ some 123)
    (first : ∀ before after, t ++ List.replicate k 92 ++ [123, 123] ++ r = before ++ [123, 123] ++ after →
      (t ++ List.replicate k 92).length ≤ before.length) :
    (k = 0 → Reads (t ++ List.replicate k 92 ++ [123, 123] ++ r) t [.mu] ([123, 123] ++ r)) ∧
    (2 ≤ k → Reads (t ++ List.replicate k 92 ++ [123, 123] ++ r) (t ++ List.replicate (k - 1) 92) [.mu]
      ([123, 123] ++ r)) ∧
    (k = 1 → ∃ before after, r = before ++ after ∧
      Reads (t ++ List.replicate k 92 ++ [123, 123] ++ r) (t ++ [123, 123] ++ before) [.emu] after ∧
      (after = [] ∨ lexer.Emits [.emu] after [] [] after)) := by
  have other : ∀ c ∈ r.head?, c ≠ 123 := by
    rintro c head rfl
    exact brace head
  have whole : t ++ List.replicate k 92 ++ [123, 123] ++ r =
      t ++ (List.replicate k 92 ++ 123 :: 123 :: r) := by simp
  have known : Before r k t := by
    refine ⟨nul_free, last, ?_⟩
    intro before after same
    have bound := first before after (by rw [whole, same, List.append_assoc]; rfl)
    simpa using bound
  have ends := ends_text other known
  rw [whole]
  refine ⟨?_, ?_, ?_⟩
  · rintro rfl
    exact ends
  · intro two
    obtain ⟨k, rfl⟩ : ∃ m, k = m + 2 := ⟨k - 2, by omega⟩
    exact ends
  · rintro rfl
    obtain ⟨before, after, split, head, reads⟩ := ends
    refine ⟨before, after, split, by simpa using reads, ?_⟩
    cases after with
    | nil => exact .inl rfl
    | cons c after =>
      have step : lexer.Emits [.emu] (c :: after) (none : Option Token).toList [] (c :: after) :=
        .single (next_unescaped (head c rfl) after)
      exact .inr step

theorem content_before_mustache_escaped :
    Reads [97, 92, 92, 123, 123, 98, 125, 125] [97, 92] [.mu] [123, 123, 98, 125, 125] := by
  refine (content_before_mustache [97] [98, 125, 125] 2 (by decide) (by decide) (by decide) ?_).2.1
    (by decide)
  intro before after same
  match before with
  | [] => simp at same
  | [_] => simp at same
  | [_, _] => simp at same
  | _ :: _ :: _ :: _ => simp

end HandlebarsC.Parser
