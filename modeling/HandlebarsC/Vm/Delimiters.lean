import HandlebarsC.Parser.Bounds
import HandlebarsC.Parser.Quoted
import HandlebarsC.Vm.Helpers

/-!
The tag that stands for a delimiter switch: what the lexer reads it as, and what the helper that it
calls leaves in the VM.
-/

namespace HandlebarsC.Parser

open Munch (Scanner)
open Exec (builtinSetDelimiters)

/-- The tokens of a call of the helper with two strings -/
def callTokens (first second : Str) : List Token := [
  ⟨.open_, bytes "\x7b\x7b"⟩, ⟨.id, bytes "hbsc_set_delimiters"⟩, ⟨.string, first⟩, ⟨.string, second⟩,
  ⟨.close, bytes "\x7d\x7d"⟩]

/-- Whether the lexer reads two delimiters back from their tag: a backslash is read as such where a
quote follows it, and the close delimiter may end in one where no other quote follows. -/
def quotable (delimOpen delimClose behind : Str) : Bool :=
  slashesQuote false delimOpen && slashesQuote (!behind.contains 34) delimClose &&
    decide (behind.head? ≠ some 125)

theorem switchTag_eq (delimOpen delimClose behind : Str) :
    switchTag delimOpen delimClose ++ behind =
      bytes "\x7b\x7bhbsc_set_delimiters " ++ 34 :: (escaped delimOpen ++
        34 :: 32 :: 34 :: (escaped delimClose ++ 34 :: 125 :: 125 :: behind)) := by
  have front : bytes "\x7b\x7bhbsc_set_delimiters \"" = bytes "\x7b\x7bhbsc_set_delimiters " ++ [34] := by
    decide
  have middle : bytes "\" \"" = [34, 32, 34] := by decide
  have last : bytes "\"\x7d\x7d" = [34, 125, 125] := by decide
  rw [switchTag, front, middle, last]
  simp [escaped]

/-- A match that a fixed text settles -/
theorem lex_fixed {starts last : Starts} {before rest : Str} {token : Option Token}
    (found : Munch.next rulesOf starts before = some (token, last, rest))
    (known : ((rulesOf starts).all fun rule => rule.pattern.settled before) = true) (after : Str) :
    lexer.lex starts (before ++ after) = token.toList ++ lexer.lex last (rest ++ after) := by
  have next_found : Munch.next lexer.rules starts (before ++ after) = some (token, last, rest ++ after) :=
    Munch.next_append (List.all_eq_true.mp known) found after
  exact Scanner.lex_next next_found

theorem lex_space (rest : Str) : lexer.lex [.mu] (32 :: 34 :: rest) = lexer.lex [.mu] (34 :: rest) := by
  have found : Munch.next rulesOf [.mu] [32, 34] = some (none, [.mu], [34]) := by decide
  exact lex_fixed found (by decide) rest

/-- The start of the tag, up to its first string -/
theorem lex_call (rest : Str) :
    lexer.lex [] (bytes "\x7b\x7bhbsc_set_delimiters " ++ 34 :: rest) =
      ⟨.open_, bytes "\x7b\x7b"⟩ :: ⟨.id, bytes "hbsc_set_delimiters"⟩ :: lexer.lex [.mu] (34 :: rest) := by
  have front : bytes "\x7b\x7bhbsc_set_delimiters " ++ 34 :: rest =
      bytes "\x7b\x7bhbsc_set_delimiters \"" ++ rest := by
    have split : bytes "\x7b\x7bhbsc_set_delimiters \"" = bytes "\x7b\x7bhbsc_set_delimiters " ++ [34] := by
      decide
    simp [split]
  have enters : Munch.next rulesOf [] (bytes "\x7b\x7bhbsc_set_delimiters \"") =
      some (none, [.mu], bytes "\x7b\x7bhbsc_set_delimiters \"") := by decide
  have opens : Munch.next rulesOf [.mu] (bytes "\x7b\x7bhbsc_set_delimiters \"") =
      some (some ⟨.open_, bytes "\x7b\x7b"⟩, [.mu], bytes "hbsc_set_delimiters \"") := by decide
  have names : Munch.next rulesOf [.mu] (bytes "hbsc_set_delimiters \"") =
      some (some ⟨.id, bytes "hbsc_set_delimiters"⟩, [.mu], [32, 34]) := by decide
  rw [front, lex_fixed enters (by decide) rest, lex_fixed opens (by decide) rest,
    lex_fixed names (by decide) rest, ← lex_space]
  rfl

def closeRawRule : LexRule :=
  ⟨Pattern.text "\x7d\x7d\x7d\x7d" .blank, 0, fun text starts => ⟨0, .raw :: starts.tail, some ⟨.closeRawBlock, text⟩⟩⟩

def closeUnescapedRule : LexRule :=
  ⟨Pattern.text "\x7d" (Pattern.strip (Pattern.text "\x7d\x7d" .blank)), 0, pops .closeUnescaped⟩

def closeRule : LexRule := ⟨Pattern.strip (Pattern.text "\x7d\x7d" .blank), 0, pops .close⟩

/-- The rules in front of the one that closes a tag -/
def closeFront : List LexRule :=
  muRules.take 3 ++ closeRawRule :: ((muRules.drop 4).take 18 ++ [closeUnescapedRule])

/-- The rules behind it, but for those that take a single byte -/
def closeBehind : List LexRule := (muRules.drop 24).take 12

def singles : List LexRule := [⟨Pattern.dot, 0, returns .invalid⟩, defaultRule]

theorem rules_close : rulesOf [.mu] = closeFront ++ closeRule :: (closeBehind ++ singles) := rfl

theorem closeFront_cases (member : rule ∈ closeFront) :
    idle 125 rule = true ∨ rule = closeRawRule ∨ rule = closeUnescapedRule := by
  have all_idle : ∀ rule ∈ muRules.take 3 ++ (muRules.drop 4).take 18, idle 125 rule = true := by
    rw [← List.all_eq_true]
    rfl
  simp only [closeFront, List.mem_append, List.mem_cons, List.not_mem_nil, or_false] at member
  rcases member with first | rfl | second | rfl
  · exact .inl (all_idle rule (List.mem_append_left _ first))
  · exact .inr (.inl rfl)
  · exact .inl (all_idle rule (List.mem_append_right _ second))
  · exact .inr (.inr rfl)

theorem closeBehind_idle : ∀ rule ∈ closeBehind, idle 125 rule = true := by
  rw [← List.all_eq_true]
  rfl

theorem longest_close (behind : Str) : closeRule.pattern.longest (125 :: 125 :: behind) = some 2 := by
  have after : (closeRule.pattern.derive 125).derive 125 = .blank := rfl
  rw [Regex.longest_of_derive _ rfl, Regex.longest_of_derive _ rfl, after, Regex.longest_blank]
  rfl

theorem singles_le (member : rule ∈ singles) (matched : rule.pattern.longest text = some m) : m ≤ 1 := by
  simp only [singles, List.mem_cons, List.not_mem_nil, or_false] at member
  rcases member with rfl | rfl <;> exact Regex.longest_char_le _ matched

theorem closeRaw_none (other : behind.head? ≠ some 125) :
    closeRawRule.pattern.longest (125 :: 125 :: behind) = none := by
  refine (literal_fronted [125, 125, 125, 125] .blank).longest_none ?_
  rintro ⟨rest, same⟩
  obtain rfl : 125 :: 125 :: rest = behind := by simpa using same
  simp at other

theorem closeUnescaped_none (other : behind.head? ≠ some 125) :
    closeUnescapedRule.pattern.longest (125 :: 125 :: behind) = none := by
  have after : (closeUnescapedRule.pattern.derive 125).derive 125 = .literal [125] .blank := rfl
  rw [Regex.longest_of_derive _ rfl, Regex.longest_of_derive _ rfl, after,
    (literal_fronted [125] .blank).longest_none]
  · rfl
  · rintro ⟨rest, rfl⟩
    simp at other

/-- Two braces that no third one follows close the tag. -/
theorem next_close (other : behind.head? ≠ some 125) :
    Munch.next lexer.rules [.mu] (125 :: 125 :: behind) = some (some ⟨.close, [125, 125]⟩, [], behind) := by
  have chosen : Munch.best (rulesOf [.mu]) (125 :: 125 :: behind) = some (2, closeRule) := by
    rw [rules_close]
    refine Munch.best_eq _ _ ?_ (longest_close behind) ?_
    · intro rule member
      rcases closeFront_cases member with known | rfl | rfl
      · exact none_lt (idle_none known _)
      · exact none_lt (closeRaw_none other)
      · exact none_lt (closeUnescaped_none other)
    · intro rule member m matched
      rcases List.mem_append.mp member with member | member
      · exact none_le (idle_none (closeBehind_idle rule member) _) m matched
      · exact Nat.le_succ_of_le (singles_le member matched)
  exact Munch.next_of_best (by simp) chosen

/-- With a third one they are the end of another tag. -/
theorem lex_not_close (behind string : Str) (more : List Token) :
    lexer.lex [.mu] (125 :: 125 :: 125 :: behind) ≠ ⟨.close, string⟩ :: more := by
  have three : closeUnescapedRule.pattern.Matches [125, 125, 125] := by
    rw [← Regex.derive_matches, ← Regex.derive_matches, ← Regex.derive_matches, ← Regex.nullable_iff]
    rfl
  obtain ⟨k, longer, three_le⟩ := Regex.le_longest _ three behind
  have listed : closeUnescapedRule ∈ rulesOf [.mu] := by
    rw [rules_close]
    simp [closeFront]
  intro same
  cases step : Munch.next lexer.rules [.mu] (125 :: 125 :: 125 :: behind) with
  | none =>
    have missing := Option.map_eq_none_iff.mp step
    exact Munch.best_ne_none listed longer missing
  | some result =>
    obtain ⟨token, last, rest⟩ := result
    rw [Scanner.lex_next step] at same
    obtain ⟨n, rule, member, matched, maximal, rfl, -, -⟩ := Munch.next_spec step
    have long : k ≤ n := maximal _ listed _ longer
    change rule ∈ rulesOf [.mu] at member
    rw [rules_close] at member
    rcases List.mem_append.mp member with member | member
    · rcases closeFront_cases member with known | rfl | rfl
      · rw [idle_none known] at matched
        cases matched
      · cases (List.cons.inj same).1
      · cases (List.cons.inj same).1
    · rcases List.mem_cons.mp member with rfl | member
      · rw [longest_close] at matched
        obtain rfl := Option.some.inj matched
        exact absurd (Nat.le_trans three_le long) (by decide)
      rcases List.mem_append.mp member with member | member
      · rw [idle_none (closeBehind_idle rule member)] at matched
        cases matched
      · have single := singles_le member matched
        exact absurd (Nat.le_trans three_le (Nat.le_trans long single)) (by decide)

/-- The tag of a switch is read as a call with the two delimiters, just where they are quotable. -/
theorem lex_switchTag_iff (delimOpen delimClose behind : Str) :
    lexer.lex [] (switchTag delimOpen delimClose ++ behind) =
        callTokens delimOpen delimClose ++ lexer.lex [] behind ↔
      quotable delimOpen delimClose behind = true := by
  rw [switchTag_eq, lex_call]
  simp only [callTokens, List.cons_append, List.nil_append, List.cons_inj_right]
  rw [lex_escaped_iff, lex_space, lex_escaped_iff]
  have last : lexer.lex [.mu] (125 :: 125 :: behind) = ⟨.close, bytes "\x7d\x7d"⟩ :: lexer.lex [] behind ↔
      behind.head? ≠ some 125 := by
    constructor
    · intro same head
      cases behind with
      | nil => cases head
      | cons c behind =>
        obtain rfl : c = 125 := Option.some.inj head
        exact lex_not_close _ _ _ same
    · intro other
      rw [bytes_close, Scanner.lex_next (next_close other)]
      rfl
  rw [last]
  simp [quotable, and_assoc]

/-- A start condition stands alone on `INITIAL`, or is raw text in raw text. -/
def Stacked (starts : Starts) : Prop := starts.tail = [] ∨ ∀ start ∈ starts, start = .raw

theorem Stacked.raws (stacked : Stacked (.raw :: starts)) : ∀ start ∈ starts, start = .raw := by
  rcases stacked with alone | raws
  · obtain rfl : starts = [] := alone
    exact fun _ member => absurd member List.not_mem_nil
  · exact fun start member => raws start (List.mem_cons_of_mem _ member)

theorem Stacked.alone (stacked : Stacked (start :: starts)) (other : start ≠ .raw) : starts = [] := by
  rcases stacked with alone | raws
  · exact alone
  · exact absurd (raws start List.mem_cons_self) other

theorem Stacked.action (stacked : Stacked starts) (member : rule ∈ rulesOf starts) (text : Str) :
    Stacked (rule.action text starts).state := by
  rcases List.mem_append.mp member with member | member
  · cases starts with
    | nil =>
      simp only [initialRules, List.mem_cons, List.not_mem_nil, or_false] at member
      casesm* _ ∨ _
      all_goals subst rule
      all_goals exact .inl rfl
    | cons start starts =>
      cases start with
      | raw =>
        have raws := stacked.raws
        simp only [Start.rules, rawRules, List.mem_cons, List.not_mem_nil, or_false] at member
        casesm* _ ∨ _
        all_goals subst rule
        all_goals right
        all_goals simpa [endRawBlock, returns] using raws
      | mu =>
        obtain rfl := stacked.alone (by decide)
        simp only [Start.rules, muRules, List.mem_cons, List.not_mem_nil, or_false] at member
        casesm* _ ∨ _
        all_goals subst rule
        all_goals exact .inl rfl
      | emu | com | com1 =>
        obtain rfl := stacked.alone (by decide)
        obtain rfl := List.mem_singleton.mp member
        exact .inl rfl
  · obtain rfl := List.mem_singleton.mp member
    exact stacked

theorem stacked_of_emits {passed : List Token} (emits : lexer.Emits [] whole passed starts rest) :
    Stacked starts := by
  refine emits.invariant (fun starts _ => Stacked starts) ?_ (.inl rfl)
  intro starts text token after rest stacked step
  obtain ⟨n, rule, member, -, -, -, rfl, -⟩ := Munch.next_spec step
  exact stacked.action member _

/-- Where every match drops its text or returns another token than the one that opens a tag, no tag
is opened first. -/
theorem head_ne_open {starts : Starts} (other : ∀ rule ∈ rulesOf starts, ∀ text,
      ((rule.action text starts).token = none ∧ (rule.action text starts).state = starts) ∨
        ∃ token, (rule.action text starts).token = some token ∧ token.token ≠ .open_)
    (text : Str) : ∀ token ∈ (lexer.lex starts text).head?, token.token ≠ .open_ := by
  unfold Scanner.lex
  generalize lexer.effort starts text + 1 = fuel
  induction fuel generalizing text with
  | zero =>
    intro token member
    cases member
  | succ fuel ih =>
    unfold Scanner.run
    cases step : Munch.next lexer.rules starts text with
    | none =>
      intro token member
      cases member
    | some result =>
      obtain ⟨token, after, rest⟩ := result
      obtain ⟨n, rule, member, -, -, rfl, rfl, -⟩ := Munch.next_spec step
      dsimp only
      rcases other rule member (text.take (n - rule.trailing)) with ⟨none, same⟩ | ⟨token, some, kind⟩
      · rw [none, same]
        exact ih rest
      · rw [some]
        rintro first ⟨⟩
        exact kind

/-- The lexer, reading a whole output, comes to a part of it as to a tag. -/
def MeetsTag (front rest : Str) : Prop :=
  ∃ passed : List Token, lexer.Emits [] (front ++ rest) passed [.mu] rest

theorem next_switchTag (delimOpen delimClose behind : Str) :
    Munch.next lexer.rules [] (switchTag delimOpen delimClose ++ behind) =
      some (none, [.mu], switchTag delimOpen delimClose ++ behind) := by
  have enters : Munch.next rulesOf [] (bytes "\x7b\x7bhbsc_set_delimiters \"") =
      some (none, [.mu], bytes "\x7b\x7bhbsc_set_delimiters \"") := by decide
  have known : ((rulesOf []).all fun rule =>
      rule.pattern.settled (bytes "\x7b\x7bhbsc_set_delimiters \"")) = true := by decide
  unfold switchTag
  simp only [List.append_assoc]
  exact Munch.next_append (List.all_eq_true.mp known) enters _

/-- In a comment and in raw text no tag is opened. -/
theorem closed_ne_open {start : Start} (closed : start = .com ∨ start = .com1 ∨ start = .raw)
    (starts : Starts) (text : Str) :
    ∀ token ∈ (lexer.lex (start :: starts) text).head?, token.token ≠ .open_ := by
  refine head_ne_open ?_ text
  intro rule member text
  rcases List.mem_append.mp member with member | member
  · right
    rcases closed with rfl | rfl | rfl
    · obtain rfl := List.mem_singleton.mp member
      exact ⟨_, rfl, by simp⟩
    · obtain rfl := List.mem_singleton.mp member
      exact ⟨_, rfl, by simp⟩
    · simp only [Start.rules, rawRules, List.mem_cons, List.not_mem_nil, or_false] at member
      rcases member with rfl | rfl | rfl | rfl
      · exact ⟨_, rfl, by simp⟩
      · refine ⟨_, rfl, ?_⟩
        split <;> simp
      · exact ⟨_, rfl, by simp⟩
      · exact ⟨_, rfl, by simp⟩
  · obtain rfl := List.mem_singleton.mp member
    exact .inl ⟨rfl, rfl⟩

/-- The start conditions in which the lexer takes two braces for a tag's, which is then all that it
is in. -/
def Opens (starts : Starts) : Prop := starts = [] ∨ starts = [.mu] ∨ starts = [.emu]

theorem Opens.enters (opens : Opens starts) (delimOpen delimClose behind : Str) :
    lexer.Emits starts (switchTag delimOpen delimClose ++ behind) [] [.mu]
      (switchTag delimOpen delimClose ++ behind) := by
  have enters : lexer.Emits [] (switchTag delimOpen delimClose ++ behind)
      (none : Option Token).toList [.mu] (switchTag delimOpen delimClose ++ behind) :=
    .single (next_switchTag delimOpen delimClose behind)
  rcases opens with rfl | rfl | rfl
  · exact enters
  · exact .refl _ _
  · exact .step (next_unescaped (by decide) _) enters

/-- The lexer reads the call only where it takes the tag for one. -/
theorem calls_iff (stacked : Stacked starts) (delimOpen delimClose behind : Str) :
    lexer.lex starts (switchTag delimOpen delimClose ++ behind) =
        callTokens delimOpen delimClose ++ lexer.lex [] behind ↔
      Opens starts ∧ quotable delimOpen delimClose behind = true := by
  by_cases opens : Opens starts
  · have first : Opens [] := .inl rfl
    rw [(opens.enters ..).lex, ← (first.enters ..).lex, lex_switchTag_iff]
    exact (and_iff_right opens).symm
  · refine iff_of_false ?_ fun both => opens both.1
    intro same
    cases starts with
    | nil => exact opens (.inl rfl)
    | cons start starts =>
      have closed : start = .com ∨ start = .com1 ∨ start = .raw := by
        cases start with
        | mu =>
          obtain rfl := stacked.alone (by decide)
          exact absurd (.inr (.inl rfl)) opens
        | emu =>
          obtain rfl := stacked.alone (by decide)
          exact absurd (.inr (.inr rfl)) opens
        | com => exact .inl rfl
        | com1 => exact .inr (.inl rfl)
        | raw => exact .inr (.inr rfl)
      have other := closed_ne_open closed starts (switchTag delimOpen delimClose ++ behind)
      rw [same] at other
      exact other _ rfl rfl

/-- The text of a switch: the current open delimiter and an equals sign, the new delimiters with spaces
around them, and the second equals sign -/
structure SwitchText (scan : Scan) (tmpl delimOpen delimClose : Str) : Prop where
  some_open : delimOpen ≠ []
  open_spaces : 32 ∉ delimOpen
  some_close : delimClose ≠ []
  close_equals : 61 ∉ delimClose
  close_start : delimClose.head? ≠ some 32
  close_end : delimClose.getLast? ≠ some 32
  whole : ∃ front n m k behind, front.length = scan.delimOpen.length + 1 ∧ 0 < m ∧
    tmpl.drop scan.p = front ++ (List.replicate n 32 ++ (delimOpen ++ (List.replicate m 32 ++
      (delimClose ++ (List.replicate k 32 ++ 61 :: behind)))))

/-- In the output, whose end is `behind`, the lexer comes to the tag that a switch appends and reads a
call of the helper with the two delimiters from it; and the helper leaves them in the VM. -/
structure SwitchCalls (scan next : Scan) (delimOpen delimClose behind : Str) : Prop where
  calls : ∃ (tag : Str) (passed : List Token) (starts : Starts), next.newTmpl = scan.newTmpl ++ tag ∧
    lexer.Emits [] (next.newTmpl ++ behind) passed starts (tag ++ behind) ∧
    lexer.lex starts (tag ++ behind) = callTokens delimOpen delimClose ++ lexer.lex [] behind
  sets : ∀ (μ κ : Type) (machine : Machine μ κ) (safe safe' : Bool), ∃ after,
    builtinSetDelimiters [.string delimOpen safe, .string delimClose safe'] machine =
      (.ok .null after, []) ∧
    after.vm.delimOpen = some delimOpen ∧ after.vm.delimClose = some delimClose

/-- The delimiters of an accepted switch are those of its text. -/
theorem switchText_of_accepted (placed : scan.Placed tmpl) (state : scan.state = .switch)
    (accepted : switchDelimiters tmpl scan = .ok next) :
    SwitchText scan tmpl next.delimOpen next.delimClose ∧
      next.newTmpl = scan.newTmpl ++ switchTag next.delimOpen next.delimClose := by
  obtain ⟨rest, some_rest, at_rest, switch⟩ := placed.here
  have fits := Scan.switch_fits (switch state)
  have some_close : scan.noClose rest = false := by
    by_contra none
    rw [Bool.not_eq_false] at none
    obtain ⟨p, length, copied⟩ := Scan.switch_noClose at_rest (by omega) none
    rw [copied] at accepted
    cases accepted
  rcases Scan.switch_some at_rest (by omega) some_close with ⟨error, thrown⟩ |
    ⟨newClose, k, some_new, new_last, text_eq, some_space, some_end, _, switched⟩
  · rw [thrown] at accepted
    cases accepted
  · obtain rfl := Except.ok.inj (switched.symm.trans accepted)
    refine ⟨?_, rfl⟩
    change SwitchText scan tmpl (Scan.newOpen (scan.switchBody rest)) newClose
    have front : tmpl.drop scan.p = rest.take (scan.delimOpen.length + 1) ++ scan.switchBody rest := by
      rw [at_rest.drop, Scan.switchBody, List.take_append_drop]
    generalize scan.switchBody rest = body at *
    obtain ⟨front_open, c, open_eq, _⟩ := Scan.newOpen_last some_space
    obtain ⟨n, _, open_spaces⟩ := Scan.spaces_front body
    obtain ⟨m, _, close_spaces⟩ := Scan.switchSpace_split body
    obtain ⟨d, behind, end_eq⟩ := List.exists_cons_of_ne_nil some_end
    obtain rfl := Scan.switchEnd_head end_eq
    have close_eq := Scan.closeText_append body
    constructor
    · simp [open_eq]
    · exact fun member => Scan.newOpen_ne member rfl
    · exact some_new
    · intro member
      have inside : 61 ∈ Scan.closeText body := by simp [text_eq, member]
      simpa using List.all_eq_true.mp List.all_takeWhile 61 inside
    · intro head
      obtain ⟨c, rest', rfl⟩ := List.exists_cons_of_ne_nil some_new
      rw [text_eq] at close_eq
      exact Scan.switchClose_head close_eq.symm (Option.some.inj head)
    · exact new_last
    · refine ⟨rest.take (scan.delimOpen.length + 1), n, m, k, behind, ?_, ?_, ?_⟩
      · rw [List.length_take, Nat.min_eq_left (by omega)]
      · rw [Nat.pos_iff_ne_zero]
        rintro rfl
        obtain ⟨c, rest', space_eq⟩ := List.exists_cons_of_ne_nil some_space
        have close_head := space_eq
        rw [close_spaces] at close_head
        exact Scan.switchClose_head close_head (Scan.switchSpace_head space_eq)
      · rw [front, List.append_cancel_left_eq]
        calc body = List.replicate n 32 ++ Scan.switchOpen body := open_spaces
          _ = List.replicate n 32 ++ (Scan.newOpen body ++ Scan.switchSpace body) := by
            rw [Scan.newOpen_append]
          _ = List.replicate n 32 ++ (Scan.newOpen body ++ (List.replicate m 32 ++
              (newClose ++ (List.replicate k 32 ++ 61 :: behind)))) := by
            rw [close_spaces, ← close_eq, text_eq, end_eq, List.append_assoc newClose]

/-- An accepted switch is a call of the helper with its two delimiters, just where the lexer comes to
the tag as to a tag, and reads the delimiters back from it. -/
theorem switch_calls_iff (visits : Visits tmpl givenOpen givenClose scan) (state : scan.state = .switch)
    (accepted : switchDelimiters tmpl scan = .ok next) :
    ∃ delimOpen delimClose, SwitchText scan tmpl delimOpen delimClose ∧
      next.delimOpen = delimOpen ∧ next.delimClose = delimClose ∧
      ∀ behind, SwitchCalls scan next delimOpen delimClose behind ↔
        MeetsTag scan.newTmpl (switchTag delimOpen delimClose ++ behind) ∧
          quotable delimOpen delimClose behind = true := by
  obtain ⟨text, appended⟩ := switchText_of_accepted (Scan.visited visits) state accepted
  refine ⟨_, _, text, rfl, rfl, fun behind => ?_⟩
  constructor
  · intro ⟨⟨tag, passed, starts, same, emits, calls⟩, _⟩
    obtain rfl := List.append_cancel_left (same.symm.trans appended)
    obtain ⟨opens, quoted⟩ := (calls_iff (stacked_of_emits emits) ..).mp calls
    rw [appended, List.append_assoc] at emits
    exact ⟨⟨_, emits.trans (opens.enters ..)⟩, quoted⟩
  · intro ⟨⟨passed, emits⟩, quoted⟩
    have opens : Opens [.mu] := .inr (.inl rfl)
    refine ⟨⟨_, passed, _, appended, ?_, (calls_iff (stacked_of_emits emits) ..).mpr ⟨opens, quoted⟩⟩,
      fun μ κ machine safe safe' => ⟨_, rfl, rfl, rfl⟩⟩
    rw [appended, List.append_assoc]
    exact emits

/-- Behind text without braces and without a backslash at its end, the lexer comes to a tag. -/
theorem meetsTag_of_plain (nul_free : 0 ∉ front) (no_brace : 123 ∉ front)
    (last : front.getLast? ≠ some 92) (delimOpen delimClose behind : Str) :
    MeetsTag front (switchTag delimOpen delimClose ++ behind) := by
  obtain ⟨rest, tag, brace⟩ : ∃ rest, switchTag delimOpen delimClose ++ behind = [123, 123] ++ rest ∧
      rest.head? ≠ some 123 := by
    have head : bytes "\x7b\x7bhbsc_set_delimiters " = 123 :: 123 :: bytes "hbsc_set_delimiters " := by
      decide
    rw [switchTag_eq, head]
    exact ⟨_, rfl, nofun⟩
  rw [tag]
  have first : ∀ before after, front ++ List.replicate 0 92 ++ [123, 123] ++ rest =
      before ++ [123, 123] ++ after → (front ++ List.replicate 0 92).length ≤ before.length := by
    intro before after same
    by_contra shorter
    rw [List.replicate_zero, List.append_nil, Nat.not_le] at shorter
    have here : (before ++ [123, 123] ++ after)[before.length]? = some 123 := by simp
    rw [← same, List.replicate_zero, List.append_nil, List.append_assoc,
      List.getElem?_append_left shorter] at here
    exact no_brace (List.mem_of_getElem? here)
  obtain ⟨pieces, -, emits⟩ :=
    (content_before_mustache front rest 0 nul_free last brace first).1 rfl
  refine ⟨contents pieces, ?_⟩
  simpa using emits

/-- The scanner at a switch behind text that it has copied -/
def atSwitch (front tmpl : Str) : Scan :=
  { Scan.start tmpl none none with
    i := tmpl.length - front.length
    p := front.length
    state := .switch
    newTmpl := front }

theorem switch_calls_percent :
    ∃ next, SwitchText (atSwitch (bytes "a") (bytes "a\x7b\x7b=<% %>=\x7d\x7d"))
        (bytes "a\x7b\x7b=<% %>=\x7d\x7d") (bytes "<%") (bytes "%>") ∧
      next.delimOpen = bytes "<%" ∧ next.delimClose = bytes "%>" ∧
      SwitchCalls (atSwitch (bytes "a") (bytes "a\x7b\x7b=<% %>=\x7d\x7d")) next (bytes "<%")
        (bytes "%>") (bytes "b\x7b\x7bc\x7d\x7d") := by
  have first : scanStep (bytes "a\x7b\x7b=<% %>=\x7d\x7d")
      (.start (bytes "a\x7b\x7b=<% %>=\x7d\x7d") none none) =
      .goes { atSwitch (bytes "a") (bytes "a\x7b\x7b=<% %>=\x7d\x7d") with state := .text } := by
    decide
  have second : scanStep (bytes "a\x7b\x7b=<% %>=\x7d\x7d")
      { atSwitch (bytes "a") (bytes "a\x7b\x7b=<% %>=\x7d\x7d") with state := .text } =
      .goes (atSwitch (bytes "a") (bytes "a\x7b\x7b=<% %>=\x7d\x7d")) := by decide
  have visits : Visits (bytes "a\x7b\x7b=<% %>=\x7d\x7d") none none
      (atSwitch (bytes "a") (bytes "a\x7b\x7b=<% %>=\x7d\x7d")) :=
    ⟨by decide, .step first (.step second (.refl _))⟩
  have accepted : switchDelimiters (bytes "a\x7b\x7b=<% %>=\x7d\x7d")
      (atSwitch (bytes "a") (bytes "a\x7b\x7b=<% %>=\x7d\x7d")) =
      .ok ((atSwitch (bytes "a") (bytes "a\x7b\x7b=<% %>=\x7d\x7d")).switched
        (bytes "<% %>=\x7d\x7d") (bytes "%>")) := by
    decide
  obtain ⟨delimOpen, delimClose, text, isOpen, isClose, calls⟩ := switch_calls_iff visits rfl accepted
  obtain rfl : bytes "<%" = delimOpen := by
    rw [← isOpen]
    decide
  obtain rfl : bytes "%>" = delimClose := by
    rw [← isClose]
    decide
  refine ⟨_, text, isOpen, isClose, (calls _).mpr ⟨?_, by decide⟩⟩
  exact meetsTag_of_plain (show 0 ∉ bytes "a" by decide) (by decide) (by decide) _ _ _

/-- A backslash in front of a letter becomes an escape: the helper gets a line end. -/
theorem switch_not_calls :
    Visits (bytes "\x7b\x7b=\\n x=\x7d\x7d") none none (atSwitch [] (bytes "\x7b\x7b=\\n x=\x7d\x7d")) ∧
      ∃ next, switchDelimiters (bytes "\x7b\x7b=\\n x=\x7d\x7d")
          (atSwitch [] (bytes "\x7b\x7b=\\n x=\x7d\x7d")) = .ok next ∧
        ¬SwitchCalls (atSwitch [] (bytes "\x7b\x7b=\\n x=\x7d\x7d")) next next.delimOpen
          next.delimClose [] := by
  have turn : scanStep (bytes "\x7b\x7b=\\n x=\x7d\x7d")
      (.start (bytes "\x7b\x7b=\\n x=\x7d\x7d") none none) =
      .goes (atSwitch [] (bytes "\x7b\x7b=\\n x=\x7d\x7d")) := by decide
  refine ⟨⟨by decide, .step turn (.refl _)⟩,
    (atSwitch [] (bytes "\x7b\x7b=\\n x=\x7d\x7d")).switched (bytes "\\n x=\x7d\x7d") (bytes "x"),
    by decide, ?_⟩
  rintro ⟨⟨tag, passed, starts, same, emits, calls⟩, _⟩
  obtain rfl := List.append_cancel_left same
  obtain ⟨-, quoted⟩ := (calls_iff (stacked_of_emits emits) ..).mp calls
  exact absurd quoted (by decide)

end HandlebarsC.Parser
