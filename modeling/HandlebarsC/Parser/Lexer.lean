import HandlebarsC.Foundation.Munch
import HandlebarsC.Parser.Slashes

/-!
The lexer: for each start condition its rules in the order of the source, each a regular
expression, the number of characters that only look ahead, and an action.
-/

namespace HandlebarsC.Parser

/-- The tokens of `handlebars.y`, without `END`, which the end of the text returns. -/
inductive TokenType where
  | content
  | endRawBlock
  | longComment
  | comment
  | openSexpr
  | closeSexpr
  | openRawBlock
  | closeRawBlock
  | openPartial
  | openPartialBlock
  | openBlock
  | openEndblock
  | inverse
  | openInverse
  | openInverseChain
  | openUnescaped
  | open_
  | equals
  | id
  | sep
  | closeUnescaped
  | close
  | string
  | singleString
  | data
  | openBlockParams
  | closeBlockParams
  | boolean
  | undefined
  | nul
  | number
  | invalid
  deriving DecidableEq, Repr

/-- `struct handlebars_token` -/
structure Token where
  token : TokenType
  string : Str
  deriving DecidableEq, Repr

/-- The start conditions but `INITIAL`, which is at the bottom of the stack only. -/
inductive Start where
  | mu
  | emu
  | com
  | com1
  | raw
  deriving DecidableEq, Repr

/-- The start conditions above `INITIAL`, the current one first. -/
abbrev Starts := List Start

abbrev Pattern := Regex UInt8

abbrev Action := Munch.Action UInt8 Starts Token

abbrev LexRule := Munch.Rule UInt8 Action

namespace Pattern

open Regex

def oneOf (chars : Str) : Pattern := .char fun c => chars.contains c

def noneOf (chars : Str) : Pattern := .char fun c => !chars.contains c

/-- `.` -/
def dot : Pattern := noneOf [10]

def anyChar : Pattern := .char fun _ => true

/-- A text between quotes, and what follows it -/
def text (chars : String) (rest : Pattern) : Pattern := literal (bytes chars) rest

/-- `LEFT_STRIP` or `RIGHT_STRIP`, or nothing -/
def strip (rest : Pattern) : Pattern := .chain (.optional (literal [126] .blank)) rest

/-- `LOOKAHEAD` -/
def lookahead : Pattern := oneOf (bytes "=~\x7d \r\n\t/.)|")

/-- `LITERAL_LOOKAHEAD` -/
def literalLookahead : Pattern := oneOf (bytes "~\x7d \r\n\t)")

/-- The third brace of `MU`, `EMU` and `EEMU` -/
def thirdBrace : Pattern := .optional (literal [123] .blank)

/-- `MU` -/
def mu : Pattern := literal [123, 123] thirdBrace

/-- `EMU` -/
def emu : Pattern := literal [92] mu

/-- `EEMU` -/
def eemu : Pattern := literal [92, 92] mu

/-- `[^\x00\{\\\r\n]` -/
def isPlain (c : UInt8) : Bool := !([0, 123, 92, 13, 10] : Str).contains c

/-- `[\r\n]` -/
def isLineEnd (c : UInt8) : Bool := c == 13 || c == 10

/-- `CONTENT` -/
def content : Pattern := .chain (.star (.char isPlain)) (.star (.char isLineEnd))

/-- `WHITESPACE` -/
def whitespace : Pattern := oneOf (bytes " \r\n\t")

/-- `IDC` -/
def isIdc (c : UInt8) : Bool :=
  !((bytes " \r\n\t!\"#./@\x60").contains c || (37 ≤ c && c ≤ 44) || (59 ≤ c && c ≤ 62) ||
    (91 ≤ c && c ≤ 94) || (123 ≤ c && c ≤ 126))

def idc : Pattern := .char isIdc

def digit : Pattern := .char isDigit

/-- The body of a quoted string -/
def quoted (quote : UInt8) : Pattern :=
  literal [quote] (.chain (.star (.either (literal [92, quote] .blank) (noneOf [quote])))
    (literal [quote] .blank))

end Pattern

open Munch (Turn)
open Pattern

/-- `handlebars_yy_copy_lval` and `return` -/
def returns (token : TokenType) : Action :=
  fun text starts => ⟨0, starts, some ⟨token, text⟩⟩

/-- `yy_pop_state`, with a token -/
def pops (token : TokenType) : Action :=
  fun text starts => ⟨0, starts.tail, some ⟨token, text⟩⟩

/-- `handlebars_yy_unput_all`, `yy_pop_state` and `yy_push_state` -/
def turnsTo (start : Start) : Action :=
  fun text starts => ⟨text.length, start :: starts.tail, none⟩

/-- The text of a quoted string without its quotes -/
def returnsString (token : TokenType) : Action :=
  fun text starts => ⟨0, starts, some ⟨token, stripcslashes text.dropLast.tail⟩⟩

/-- The rule for two backslashes: it gives the braces back and drops a backslash. -/
def escapedMu : Action := fun text starts =>
  let n := if text.reverse[2]? = some 123 then 3 else 2
  ⟨n, .mu :: starts, some ⟨.content, text.take (text.length - (n + 1))⟩⟩

def escapedMuRule : LexRule := ⟨.chain content eemu, 0, escapedMu⟩

def contentRule : LexRule := ⟨content, 0, returns .content⟩

def eemuRule : LexRule := ⟨eemu, 0, fun _ starts => ⟨2, .mu :: starts, some ⟨.content, [92]⟩⟩⟩

def emuRule : LexRule :=
  ⟨.chain emu content, 0, fun text starts => ⟨0, .emu :: starts, some ⟨.content, text.tail⟩⟩⟩

def muRule : LexRule := ⟨mu, 0, fun text starts => ⟨text.length, .mu :: starts, none⟩⟩

def braceRule : LexRule := ⟨oneOf [92, 123, 125], 0, returns .content⟩

def initialRules : List LexRule :=
  [escapedMuRule, contentRule, eemuRule, emuRule, muRule, braceRule]

def emuRules : List LexRule := [
  ⟨dot, 0, fun text starts => ⟨text.length, starts.tail, none⟩⟩]

/-- The end of a raw block, which is text where another one is open around it -/
def endRawBlock : Action := fun text starts =>
  let token : Token := if starts.tail.head? = some .raw then ⟨.content, text⟩
    else ⟨.endRawBlock, (text.drop 5).take (text.length - 9)⟩
  ⟨0, starts.tail, some token⟩

def rawRules : List LexRule := [
  ⟨text "\x7b\x7b\x7b\x7b" (noneOf [47]), 1,
    fun text starts => ⟨0, .raw :: starts, some ⟨.content, text⟩⟩⟩,
  ⟨text "\x7b\x7b\x7b\x7b/" (.chain (.plus idc) (text "\x7d\x7d\x7d\x7d" .blank)), 0, endRawBlock⟩,
  ⟨.plus (noneOf [0, 123]), 0, returns .content⟩,
  ⟨text "\x7b" .blank, 0, returns .content⟩]

def longCommentRule : LexRule :=
  ⟨text "\x7b\x7b" (strip (text "!--" (.chain
      (.star (.chain (.optional (text "-" .blank)) (noneOf [45])))
      (text "--" (strip (text "\x7d\x7d" .blank)))))), 0, pops .longComment⟩

def comRules : List LexRule := [longCommentRule]

def commentRule : LexRule :=
  ⟨.chain (.star (.chain (.optional (text "\x7d" .blank)) (noneOf [125])))
      (text "\x7d\x7d" .blank), 0, pops .comment⟩

def com1Rules : List LexRule := [commentRule]

def openLongCommentRule : LexRule := ⟨text "\x7b\x7b" (strip (text "!--" .blank)), 0, turnsTo .com⟩

def openCommentRule : LexRule := ⟨text "\x7b\x7b" (strip (text "!" .blank)), 0, turnsTo .com1⟩

def muRules : List LexRule := [
  ⟨text "(" .blank, 0, returns .openSexpr⟩,
  ⟨text ")" .blank, 0, returns .closeSexpr⟩,
  ⟨text "\x7b\x7b\x7b\x7b" .blank, 0, returns .openRawBlock⟩,
  ⟨text "\x7d\x7d\x7d\x7d" .blank, 0,
    fun text starts => ⟨0, .raw :: starts.tail, some ⟨.closeRawBlock, text⟩⟩⟩,
  ⟨text "\x7b\x7b" (strip (text ">" .blank)), 0, returns .openPartial⟩,
  ⟨text "\x7b\x7b" (strip (text "#>" .blank)), 0, returns .openPartialBlock⟩,
  ⟨text "\x7b\x7b" (strip (text "#" (.optional (text "*" .blank)))), 0, returns .openBlock⟩,
  ⟨text "\x7b\x7b" (strip (text "/" .blank)), 0, returns .openEndblock⟩,
  -- an `s` with a backslash is the letter
  ⟨text "\x7b\x7b" (strip (text "^" (.chain (.star (text "s" .blank)) (strip (text "\x7d\x7d" .blank))))),
    0, pops .inverse⟩,
  ⟨text "\x7b\x7b" (strip (.chain (.star whitespace) (text "else" (.chain (.star whitespace)
    (strip (text "\x7d\x7d" .blank)))))), 0, pops .inverse⟩,
  ⟨text "\x7b\x7b" (strip (text "^" .blank)), 0, returns .openInverse⟩,
  ⟨text "\x7b\x7b" (strip (.chain (.star (text "s" .blank)) (text "else" .blank))), 0,
    returns .openInverseChain⟩,
  ⟨text "\x7b\x7b" (strip (text "\x7b" .blank)), 0, returns .openUnescaped⟩,
  ⟨text "\x7b\x7b" (strip (text "&" .blank)), 0, returns .open_⟩,
  openLongCommentRule,
  openCommentRule,
  ⟨text "\x7b\x7b" (strip (.optional (text "*" .blank))), 0, returns .open_⟩,
  ⟨text "=" .blank, 0, returns .equals⟩,
  ⟨text ".." .blank, 0, returns .id⟩,
  ⟨text "." lookahead, 1, returns .id⟩,
  ⟨oneOf (bytes "/."), 0, returns .sep⟩,
  ⟨.plus whitespace, 0, fun _ starts => ⟨0, starts, none⟩⟩,
  ⟨text "\x7d" (strip (text "\x7d\x7d" .blank)), 0, pops .closeUnescaped⟩,
  ⟨strip (text "\x7d\x7d" .blank), 0, pops .close⟩,
  ⟨quoted 34, 0, returnsString .string⟩,
  ⟨quoted 39, 0, returnsString .singleString⟩,
  ⟨text "@" .blank, 0, returns .data⟩,
  ⟨text "as" (.chain whitespace (text "|" .blank)), 0, returns .openBlockParams⟩,
  ⟨text "|" .blank, 0, returns .closeBlockParams⟩,
  ⟨text "true" literalLookahead, 1, returns .boolean⟩,
  ⟨text "false" literalLookahead, 1, returns .boolean⟩,
  ⟨text "undefined" literalLookahead, 1, returns .undefined⟩,
  ⟨text "null" literalLookahead, 1, returns .nul⟩,
  ⟨.chain (.optional (text "-" .blank)) (.chain (.plus digit)
    (.chain (.optional (text "." (.plus digit))) literalLookahead)), 1, returns .number⟩,
  ⟨.chain (.plus idc) lookahead, 1, returns .id⟩,
  ⟨text "[" (.chain (.star (.either (text "\\]" .blank) (noneOf [93]))) (text "]" .blank)), 0,
    fun text starts => ⟨0, starts, some ⟨.id, reduceBrackets text⟩⟩⟩,
  ⟨dot, 0, returns .invalid⟩]

/-- The rule that every start condition has last: it drops a character. -/
def defaultRule : LexRule := ⟨anyChar, 0, fun _ starts => ⟨0, starts, none⟩⟩

def Start.rules : Start → List LexRule
  | .mu => muRules
  | .emu => emuRules
  | .com => comRules
  | .com1 => com1Rules
  | .raw => rawRules

def rulesOf (starts : Starts) : List LexRule :=
  (match starts with
    | [] => initialRules
    | start :: _ => start.rules) ++ [defaultRule]

/-- What a stack of start conditions may still cost without a character. -/
def startsEffort : Starts → Nat
  | [] => 2
  | .mu :: starts => 1 + 3 * starts.count .emu
  | start :: starts => 3 * (start :: starts).count .emu

def effort (starts : Starts) (text : Str) : Nat := 3 * text.length + startsEffort starts

/-- A rule whose matches take a character, or leave the text for a start condition of less
effort. -/
def Advances (starts : Starts) (rule : LexRule) : Prop :=
  ∀ n (text : Str), rule.pattern.longest text = some n → 0 < n →
    let turn := rule.action (text.take (n - rule.trailing)) starts
    startsEffort turn.state + 3 * turn.back + 3 * rule.trailing < startsEffort starts + 3 * n

theorem startsEffort_tail_le (start : Start) (starts : Starts) :
    startsEffort starts ≤ startsEffort (start :: starts) + 2 := by
  cases starts with
  | nil => simp [startsEffort]
  | cons next starts =>
    cases start <;> cases next <;> simp [startsEffort] <;> omega

/-- The rules that take what they match and do not push `emu` -/
theorem advances_taking {rule : LexRule} (behind : rule.trailing = 0 ∨
      rule.trailing < rule.pattern.shortest)
    (taken : ∀ text, (rule.action text starts).back = 0)
    (bounded : ∀ text, startsEffort (rule.action text starts).state ≤ startsEffort starts + 2) :
    Advances starts rule := by
  intro n text found positive
  have few := bounded (text.take (n - rule.trailing))
  obtain ⟨before, after, rfl, rfl, matched⟩ := ((rule.pattern.longest_eq_some_iff ..).mp found).matched
  have size := rule.pattern.shortest_le matched
  dsimp only
  rw [taken]
  omega

theorem advances_returns (behind : trailing = 0 ∨ trailing < pattern.shortest) :
    Advances starts ⟨pattern, trailing, returns token⟩ :=
  advances_taking behind (fun _ => rfl) fun _ => Nat.le_add_right _ _

theorem advances_pops (start : Start) : Advances (start :: starts) ⟨pattern, 0, pops token⟩ :=
  advances_taking (.inl rfl) (fun _ => rfl) fun _ => startsEffort_tail_le start starts

theorem advances_unput (turn : Str → Starts → Munch.Turn Starts Token)
    (back : ∀ text, (turn text starts).back = text.length)
    (less : ∀ text, startsEffort (turn text starts).state < startsEffort starts) :
    Advances starts ⟨pattern, 0, turn⟩ := by
  intro n text found positive
  have small := List.length_take_le n text
  have lower := less (text.take n)
  dsimp only [Nat.sub_zero]
  rw [back]
  omega

theorem initialRules_advance : ∀ rule ∈ initialRules, Advances [] rule := by
  simp only [initialRules, List.forall_mem_cons]
  refine ⟨?_, ?_, ?_, ?_, ?_, ?_, by simp⟩
  · intro n text found positive
    obtain ⟨before, after, rfl, rfl, matched⟩ :=
      ((Regex.longest_eq_some_iff ..).mp found).matched
    have size : 4 ≤ before.length := Regex.shortest_le _ matched
    dsimp only [escapedMuRule, escapedMu, startsEffort]
    split_ifs <;> simp <;> omega
  · exact advances_returns (.inl rfl)
  · intro n text found positive
    obtain ⟨before, after, rfl, rfl, matched⟩ :=
      ((Regex.longest_eq_some_iff ..).mp found).matched
    have size : 4 ≤ before.length := Regex.shortest_le _ matched
    simp [eemuRule, startsEffort]
    omega
  · intro n text found positive
    obtain ⟨before, after, rfl, rfl, matched⟩ :=
      ((Regex.longest_eq_some_iff ..).mp found).matched
    have size : 3 ≤ before.length := Regex.shortest_le _ matched
    simp [emuRule, startsEffort]
    omega
  · exact advances_unput _ (fun _ => rfl) fun _ => by simp [startsEffort]
  · exact advances_returns (.inl rfl)

theorem rawRules_advance (starts : Starts) : ∀ rule ∈ rawRules, Advances (.raw :: starts) rule := by
  simp only [rawRules, List.forall_mem_cons]
  refine ⟨?_, ?_, ?_, ?_, by simp⟩
  · exact advances_taking (.inr (by decide)) (fun _ => rfl) fun _ => by
      simp [startsEffort]
  · exact advances_taking (.inl rfl) (fun _ => rfl) fun _ => startsEffort_tail_le .raw starts
  · exact advances_returns (.inl rfl)
  · exact advances_returns (.inl rfl)

theorem muRules_advance (starts : Starts) : ∀ rule ∈ muRules, Advances (.mu :: starts) rule := by
  have turned (start : Start) (other : start = .com ∨ start = .com1) (pattern : Pattern) :
      Advances (.mu :: starts) ⟨pattern, 0, turnsTo start⟩ := by
    refine advances_unput _ (fun _ => rfl) fun _ => ?_
    rcases other with rfl | rfl <;> simp [turnsTo, startsEffort]
  have behind : ∀ rule ∈ muRules, rule.trailing = 0 ∨ rule.trailing < rule.pattern.shortest := by
    decide
  intro rule member
  have known := behind rule member
  clear behind
  revert known
  simp only [muRules, List.mem_cons, List.not_mem_nil, or_false] at member
  casesm* _ ∨ _
  all_goals subst rule
  all_goals intro behind
  all_goals first
    | exact advances_returns behind
    | exact advances_pops .mu
    | exact turned .com (.inl rfl) _
    | exact turned .com1 (.inr rfl) _
    | exact advances_taking behind (fun _ => rfl) fun _ => Nat.le_add_right _ _

theorem rulesOf_advance (starts : Starts) : ∀ rule ∈ rulesOf starts, Advances starts rule := by
  intro rule member
  rcases List.mem_append.mp member with member | member
  · cases starts with
    | nil => exact initialRules_advance rule member
    | cons start starts =>
      cases start with
      | mu => exact muRules_advance starts rule member
      | emu =>
        obtain rfl := List.mem_singleton.mp member
        refine advances_unput _ (fun _ => rfl) fun _ => ?_
        cases starts with
        | nil => simp [startsEffort]
        | cons next starts =>
          cases next <;> simp [startsEffort]
          omega
      | com =>
        obtain rfl := List.mem_singleton.mp member
        exact advances_pops .com
      | com1 =>
        obtain rfl := List.mem_singleton.mp member
        exact advances_pops .com1
      | raw => exact rawRules_advance starts rule member
  · obtain rfl := List.mem_singleton.mp member
    exact advances_taking (.inl rfl) (fun _ => rfl) fun _ => Nat.le_add_right _ _

theorem anyChar_longest (c : UInt8) (text : Str) : anyChar.longest (c :: text) = some 1 :=
  Regex.longest_char _ rfl text

theorem defaultRule_mem (starts : Starts) : defaultRule ∈ rulesOf starts :=
  List.mem_append_right _ (List.mem_singleton.mpr rfl)

/-- No match is empty. -/
theorem match_pos {c : UInt8} {text : Str} (maximal : ∀ rule ∈ rulesOf starts, ∀ m,
    rule.pattern.longest (c :: text) = some m → m ≤ n) : 0 < n :=
  maximal defaultRule (defaultRule_mem starts) 1 (anyChar_longest c text)

theorem next_advances (starts : Starts) (text : Str)
    (found : Munch.next rulesOf starts text = some (token, after, rest)) :
    effort after rest < effort starts text := by
  obtain ⟨n, rule, member, matched, maximal, -, rfl, rfl⟩ := Munch.next_spec found
  cases text with
  | nil => cases found
  | cons c text =>
    have positive := match_pos maximal
    have advance := rulesOf_advance starts rule member n _ matched positive
    obtain ⟨before, behind, split, size, _⟩ := ((Regex.longest_eq_some_iff ..).mp matched).matched
    have fits : n ≤ (c :: text).length := by
      rw [split, ← size]
      simp
    dsimp only at advance
    unfold effort
    rw [List.length_drop]
    omega

/-- `handlebars_yy_lex`, called until it returns `END` -/
def lexer : Munch.Scanner UInt8 Starts Token where
  rules := rulesOf
  effort := effort
  progress := fun starts text _ _ _ => next_advances starts text

/-- The tokens of a template -/
def tokens (template : Str) : List Token := lexer.lex [] template

end HandlebarsC.Parser
