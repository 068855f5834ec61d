import HandlebarsC.Core.Text
import HandlebarsC.Foundation.Escape

/-!
The two functions on backslashes: one writes them before characters, the other reads
the escapes of a quoted string.
-/

namespace HandlebarsC.Parser

/-- `%03o` -/
def octal3 (char : UInt8) : Str :=
  [48 + char / 64, 48 + char / 8 % 8, 48 + char % 8]

/-- What stands for a character in the set that `handlebars_string_addcslashes` escapes. -/
def addcslash (char : UInt8) : Str :=
  if char < 32 || char > 126 then
    92 :: (if char = 10 then bytes "n"
      else if char = 9 then bytes "t"
      else if char = 13 then bytes "r"
      else if char = 7 then bytes "a"
      else if char = 11 then bytes "v"
      else if char = 8 then bytes "b"
      else if char = 12 then bytes "f"
      else octal3 char)
  else [92, char]

/-- `handlebars_string_addcslashes` -/
def addcslashes (text what : Str) : Str :=
  text.flatMap fun char => if what.contains char then addcslash char else [char]

def isOctal (char : UInt8) : Bool := 48 ≤ char && char ≤ 55

/-- The value of a character that `isxdigit` accepts. -/
def hexDigit (char : UInt8) : Option UInt8 :=
  if 48 ≤ char && char ≤ 57 then some (char - 48)
  else if 65 ≤ char && char ≤ 70 then some (char - 55)
  else if 97 ≤ char && char ≤ 102 then some (char - 87)
  else none

def octalValue (digits : Str) : UInt8 :=
  digits.foldl (fun value digit => value * 8 + (digit - 48)) 0

/-- An escape that is not a letter of its own: up to three octal digits, or the character. -/
def unescapeOctal (char : UInt8) (rest : Str) : UInt8 × Nat :=
  let digits := ((char :: rest).take 3).takeWhile isOctal
  if digits.isEmpty then (char, 1) else (octalValue digits, digits.length)

/-- `\x`: one or two digits, or the letter. -/
def unescapeHex (rest : Str) : UInt8 × Nat :=
  match rest with
  | [] => (120, 1)
  | first :: rest =>
    match hexDigit first, rest.head?.bind hexDigit with
    | some high, some low => (high * 16 + low, 3)
    | some value, none => (value, 2)
    | none, _ => (120, 1)

/-- What the characters behind a backslash stand for, and how many of them there are. -/
def unescape (char : UInt8) (rest : Str) : UInt8 × Nat :=
  if char = 110 then (10, 1)
  else if char = 114 then (13, 1)
  else if char = 97 then (7, 1)
  else if char = 116 then (9, 1)
  else if char = 118 then (11, 1)
  else if char = 98 then (8, 1)
  else if char = 102 then (12, 1)
  else if char = 92 then (92, 1)
  else if char = 120 then unescapeHex rest
  else unescapeOctal char rest

/-- The loop of `handlebars_string_stripcslashes`, with the number of characters that the
escape before has taken. -/
def stripFrom : Nat → Str → Str
  | _, [] => []
  | taken + 1, _ :: rest => stripFrom taken rest
  | 0, [char] => [char]
  | 0, char :: next :: rest =>
    if char = 92 then
      let escape := unescape next rest
      escape.1 :: stripFrom escape.2 (next :: rest)
    else char :: stripFrom 0 (next :: rest)

/-- `handlebars_string_stripcslashes` -/
def stripcslashes (text : Str) : Str := stripFrom 0 text

/-- `handlebars_str_reduce` of `\]` to `]` -/
def reduceBrackets : Str → Str
  | 92 :: 93 :: rest => 93 :: reduceBrackets rest
  | char :: rest => char :: reduceBrackets rest
  | [] => []

theorem stripFrom_cons (other : c ≠ 92) (text : Str) : stripFrom 0 (c :: text) = c :: stripFrom 0 text := by
  cases text with
  | nil => rfl
  | cons d text => exact if_neg other

theorem stripFrom_slash (c : UInt8) (text : Str) :
    stripFrom 0 (92 :: c :: text) = (unescape c text).1 :: stripFrom (unescape c text).2 (c :: text) :=
  if_pos rfl

/-- What an escape takes is skipped. -/
theorem stripFrom_taken (taken text : Str) :
    stripFrom taken.length (taken ++ text) = stripFrom 0 text := by
  induction taken with
  | nil => rfl
  | cons char taken ih => exact ih

theorem stripFrom_escape (decoded : unescape next (rest ++ text) = (char, rest.length + 1)) :
    stripFrom 0 (92 :: next :: rest ++ text) = char :: stripFrom 0 text := by
  rw [List.cons_append, List.cons_append, stripFrom_slash, decoded]
  exact congrArg (char :: ·) (stripFrom_taken (next :: rest) text)

/-- Every byte is written with three octal digits, which are its value. -/
theorem octal3_digits (char : UInt8) : isOctal (48 + char / 64) = true ∧
    (octal3 char).takeWhile isOctal = octal3 char ∧ octalValue (octal3 char) = char := by
  have checked : ∀ char : UInt8, isOctal (48 + char / 64) = true ∧
      isOctal (48 + char / 8 % 8) = true ∧ isOctal (48 + char % 8) = true ∧
      octalValue (octal3 char) = char := forall_byte (by decide +kernel)
  obtain ⟨first, second, third, value⟩ := checked char
  refine ⟨first, ?_, value⟩
  simp only [octal3, List.takeWhile_cons, first, second, third, if_true, List.takeWhile_nil]

/-- No octal digit is a letter that has an escape of its own. -/
theorem unescape_octal (octal : isOctal digit = true) (text : Str) :
    unescape digit text = unescapeOctal digit text := by
  have small : digit ≤ 55 := of_decide_eq_true (Bool.and_eq_true_iff.mp octal).2
  have other (letter : UInt8) (behind : 55 < letter) : (digit = letter) = False := by
    refine eq_false ?_
    rintro rfl
    exact UInt8.not_lt.mpr small behind
  simp only [unescape, other 110 (by decide), other 114 (by decide), other 97 (by decide),
    other 116 (by decide), other 118 (by decide), other 98 (by decide), other 102 (by decide),
    other 92 (by decide), other 120 (by decide), if_false]

theorem unescape_octal3 (char : UInt8) (text : Str) :
    unescape (48 + char / 64) ([48 + char / 8 % 8, 48 + char % 8] ++ text) = (char, 3) := by
  obtain ⟨first, digits, value⟩ := octal3_digits char
  have taken : ((48 + char / 64) :: ([48 + char / 8 % 8, 48 + char % 8] ++ text)).take 3 =
      octal3 char := rfl
  rw [unescape_octal first, unescapeOctal, taken, digits, value]
  rfl

/-- A character that is neither a letter with an escape nor an octal digit stands for itself
behind a backslash. -/
theorem unescape_other (apart : char ∉ bytes "abfnrtvx01234567") (text : Str) :
    unescape char text = (char, 1) := by
  have digit : isOctal char = false := by
    have checked : ∀ index : Fin 256, isOctal (UInt8.ofFin index) = true →
      UInt8.ofFin index ∈ bytes "abfnrtvx01234567" := by decide +kernel
    exact Bool.eq_false_iff.mpr (mt (checked char.toFin) apart)
  have octal : unescapeOctal char text = (char, 1) := by
    simp [unescapeOctal, digit]
  have letters : bytes "abfnrtvx01234567" =
    [97, 98, 102, 110, 114, 116, 118, 120, 48, 49, 50, 51, 52, 53, 54, 55] := by decide
  rw [letters] at apart
  simp only [List.mem_cons, not_or] at apart
  obtain ⟨a, b, f, n, r, t, v, x, -⟩ := apart
  rw [unescape, if_neg n, if_neg r, if_neg a, if_neg t, if_neg v, if_neg b, if_neg f, if_neg x,
    octal]
  split_ifs with slash
  · rw [slash]
  · rfl

/-- What stands for an escaped character is read back as it, whatever follows. -/
theorem stripFrom_addcslash (apart : char ∉ bytes "abfnrtvx01234567") (text : Str) :
    stripFrom 0 (addcslash char ++ text) = char :: stripFrom 0 text := by
  unfold addcslash
  split_ifs with control
  all_goals first
    | exact stripFrom_escape (unescape_octal3 char text)
    | exact stripFrom_escape (unescape_other apart text)
    | subst_vars
      exact stripFrom_escape rfl

/-- Stripping gives back the text to which slashes were added. -/
theorem stripcslashes_addcslashes (text what : Str) (slash : 92 ∈ what)
    (apart : ∀ char ∈ bytes "abfnrtvx01234567", char ∉ what) :
    stripcslashes (addcslashes text what) = text := by
  apply Escape.decode_flatMap
  · rfl
  · intro char text
    by_cases escaped : what.contains char = true
    · rw [if_pos escaped]
      apply stripFrom_addcslash
      intro letter
      exact apart char letter (List.contains_iff_mem.mp escaped)
    · rw [if_neg escaped]
      apply stripFrom_cons
      rintro rfl
      exact escaped (List.contains_iff_mem.mpr slash)

theorem stripcslashes_addcslashes_quote :
    stripcslashes (addcslashes (bytes "\x002\"\\n\n") (bytes "\x00\n\"\\")) =
      bytes "\x002\"\\n\n" :=
  stripcslashes_addcslashes _ _ (by decide) (by decide +kernel)

/-! ### Where a text and what is left of it agree -/

theorem stripFrom_drop (taken : Nat) (text : Str) :
    stripFrom taken text = stripFrom 0 (text.drop taken) := by
  induction taken generalizing text with
  | zero => rfl
  | succ taken ih =>
    cases text with
    | nil => rfl
    | cons char text => exact ih text

theorem length_stripFrom (taken : Nat) (text : Str) :
    (stripFrom taken text).length ≤ text.length := by
  induction taken, text using stripFrom.induct with
  | case1 taken => exact Nat.le_refl _
  | case2 taken char text ih => exact Nat.le_succ_of_le ih
  | case3 char => exact Nat.le_refl _
  | case4 next text escape ih =>
    rw [stripFrom_slash]
    exact Nat.succ_le_succ ih
  | case5 char next text plain ih =>
    rw [stripFrom, if_neg plain]
    exact Nat.succ_le_succ ih

/-- Stripping makes no text longer. -/
theorem length_stripcslashes (text : Str) : (stripcslashes text).length ≤ text.length :=
  length_stripFrom 0 text

theorem hexDigit_ne (digit : hexDigit c = some value) (other : hexDigit char = none) : c ≠ char := by
  rintro rfl
  rw [digit] at other
  cases other

/-- An escape is a letter, or it is read by one of the two procedures for numbers. -/
theorem unescape_elim {P : UInt8 × Nat → Prop} (letter : ∀ byte, P (byte, 1))
    (hex : P (unescapeHex text)) (octal : P (unescapeOctal c text)) : P (unescape c text) := by
  unfold unescape
  iterate 8 refine iteInduction (fun _ => letter _) fun _ => ?_
  exact iteInduction (fun _ => hex) fun _ => octal

/-- Without a digit behind it, `\x` is the letter. -/
theorem unescapeHex_none (none : text.head?.bind hexDigit = none) :
    unescapeHex text = (120, 1) := by
  cases text with
  | nil => rfl
  | cons first rest =>
    have none : hexDigit first = Option.none := none
    unfold unescapeHex
    dsimp only
    rw [none]

theorem unescapeHex_taken (other : hexDigit char = none) (text : Str) :
    0 < (unescapeHex text).2 ∧ char ∉ text.take ((unescapeHex text).2 - 1) := by
  cases text with
  | nil => simp [unescapeHex]
  | cons first rest =>
    cases high : hexDigit first with
    | none => simp [unescapeHex, high]
    | some value =>
      have apart := (hexDigit_ne high other).symm
      cases rest with
      | nil => simpa [unescapeHex, high] using apart
      | cons second rest =>
        cases low : hexDigit second with
        | none => simpa [unescapeHex, high, low] using apart
        | some digit => simpa [unescapeHex, high, low] using ⟨apart, (hexDigit_ne low other).symm⟩

theorem isOctal_hexDigit (other : hexDigit char = none) : isOctal char = false := by
  refine Bool.eq_false_iff.mpr fun octal => ?_
  simp only [isOctal, Bool.and_eq_true, decide_eq_true_eq] at octal
  have decimal : char ≤ 57 := UInt8.le_trans octal.2 (by decide)
  simp [hexDigit, octal.1, decimal] at other

theorem unescapeOctal_taken (other : hexDigit char = none) (c : UInt8) (text : Str) :
    0 < (unescapeOctal c text).2 ∧ char ∉ text.take ((unescapeOctal c text).2 - 1) := by
  unfold unescapeOctal
  dsimp only
  rw [List.take_succ_cons]
  by_cases octal : isOctal c
  · have apart : char ∉ (text.take 2).takeWhile isOctal := by
      intro member
      have digit := List.all_eq_true.mp List.all_takeWhile char member
      rw [isOctal_hexDigit other] at digit
      cases digit
    have front : (text.take 2).takeWhile isOctal <+: text :=
      (List.takeWhile_prefix _).trans (List.take_prefix ..)
    simp only [List.takeWhile_cons, octal, if_true, List.isEmpty_cons, Bool.false_eq_true, if_false,
      List.length_cons, Nat.add_sub_cancel, Nat.zero_lt_succ, true_and]
    rwa [← List.prefix_iff_eq_take.mp front]
  · simp [octal]

/-- Behind its first character an escape takes digits only. -/
theorem unescape_taken (other : hexDigit char = none) (c : UInt8) (text : Str) :
    0 < (unescape c text).2 ∧ char ∉ text.take ((unescape c text).2 - 1) := by
  apply unescape_elim (P := fun escape => 0 < escape.2 ∧ char ∉ text.take (escape.2 - 1))
  · simp
  · exact unescapeHex_taken other text
  · exact unescapeOctal_taken other c text

/-- What an escape takes has no zero, unless it starts with one. -/
theorem zero_taken (nonzero : next ≠ 0) (text : Str) :
    0 ∉ (next :: text).take (unescape next text).2 := by
  obtain ⟨some, apart⟩ := unescape_taken (show hexDigit 0 = none from rfl) next text
  obtain ⟨taken, size⟩ := Nat.exists_eq_add_of_lt some
  rw [size, Nat.zero_add, Nat.add_sub_cancel] at apart
  rw [size, Nat.zero_add, List.take_succ_cons]
  exact List.not_mem_cons_of_ne_of_not_mem nonzero.symm apart

/-- What an escape takes in front of a zero ends in front of it. -/
theorem unescape_inside (plain : 0 ∉ next :: front) (text : Str) :
    (unescape next (front ++ 0 :: text)).2 ≤ (next :: front).length := by
  have nonzero : next ≠ 0 := by
    rintro rfl
    exact plain List.mem_cons_self
  have taken := zero_taken nonzero (front ++ 0 :: text)
  apply Nat.le_of_not_lt
  intro past
  apply taken
  rw [← List.cons_append, List.take_append]
  obtain ⟨more, size⟩ := Nat.exists_eq_add_of_lt past
  rw [size, Nat.add_assoc, Nat.add_sub_cancel_left]
  exact List.mem_append_right _ List.mem_cons_self

/-- A zero is not moved back. -/
theorem stripcslashes_zero (front text : Str) (plain : 0 ∉ front) :
    ∃ out rest, stripcslashes (front ++ 0 :: text) = out ++ 0 :: rest ∧
      out.length ≤ front.length := by
  induction size : front.length using Nat.strongRecOn generalizing front with
  | ind length ih =>
    cases front with
    | nil => exact ⟨[], _, stripFrom_cons (by decide) text, Nat.zero_le _⟩
    | cons char front =>
      have later : 0 ∉ front := fun zero => plain (List.mem_cons_of_mem _ zero)
      rw [List.length_cons] at size
      by_cases slash : char = 92
      · subst slash
        cases front with
        | nil =>
          have decoded := @unescape_other 0 (by decide) text
          refine ⟨[], stripFrom 1 (0 :: text), ?_, Nat.zero_le _⟩
          change stripFrom 0 (92 :: 0 :: text) = _
          rw [stripFrom_slash, decoded, List.nil_append]
        | cons next front =>
          obtain ⟨some, -⟩ := unescape_taken (show hexDigit 0 = none from rfl) next (front ++ 0 :: text)
          have inside := unescape_inside later text
          have dropped : 0 ∉ (next :: front).drop (unescape next (front ++ 0 :: text)).2 :=
            fun zero => later (List.mem_of_mem_drop zero)
          rw [List.length_cons] at inside size
          obtain ⟨out, rest, stripped, shorter⟩ := ih _
            (by rw [List.length_drop, List.length_cons]; omega) _ dropped rfl
          rw [List.length_drop, List.length_cons] at shorter
          refine ⟨(unescape next (front ++ 0 :: text)).1 :: out, rest, ?_, ?_⟩
          · change stripFrom 0 (92 :: next :: (front ++ 0 :: text)) = _
            rw [stripFrom_slash, stripFrom_drop, ← List.cons_append,
              List.drop_append_of_le_length (by rwa [List.length_cons])]
            exact congrArg _ stripped
          · rw [List.length_cons]
            omega
      · obtain ⟨out, rest, stripped, shorter⟩ := ih front.length (by omega) front later rfl
        refine ⟨char :: out, rest, ?_, by rw [List.length_cons]; omega⟩
        exact (stripFrom_cons slash _).trans (congrArg (char :: ·) stripped)

/-- The first zero of a text with characters in front of it is not where stripping what lies
behind them leaves off. -/
theorem zero_apart (nonempty : front ≠ []) (plain : 0 ∉ front) (text rest : Str) :
    front ++ text ≠ stripcslashes text ++ 0 :: rest := by
  intro same
  have positive := List.length_pos_of_ne_nil nonempty
  by_cases zero : 0 ∈ text
  · obtain ⟨before, behind, rfl, first⟩ := List.eq_append_cons_of_mem zero
    obtain ⟨out, left, stripped, shorter⟩ := stripcslashes_zero before behind first
    rw [stripped, ← List.append_assoc, List.append_assoc out] at same
    have inside : out.length < (front ++ before).length := by
      rw [List.length_append]
      omega
    have here : (front ++ before)[out.length]? = some 0 := by
      have char := congrArg (fun text : Str => text[out.length]?) same
      simp only [List.getElem?_append_left inside, List.getElem?_append_right (Nat.le_refl _),
        Nat.sub_self, List.cons_append, List.getElem?_cons_zero] at char
      exact char
    rcases List.mem_append.mp (List.mem_of_getElem? here) with early | late
    · exact plain early
    · exact first late
  · have absent : 0 ∉ front ++ text := by
      simp [plain, zero]
    rw [same] at absent
    simp at absent

/-- A text that stripping shortens does not start with what is left of it and a zero. -/
theorem stripcslashes_apart (text rest : Str) : text ≠ stripcslashes text ++ 0 :: rest := by
  induction text with
  | nil => simp [stripcslashes, stripFrom]
  | cons char text ih =>
    intro same
    by_cases slash : char = 92
    · subst slash
      cases text with
      | nil => simp [stripcslashes, stripFrom] at same
      | cons next text =>
        rw [stripcslashes, stripFrom_slash, stripFrom_drop, List.cons_append] at same
        obtain ⟨decoded, same⟩ := List.cons.inj same
        obtain ⟨some, -⟩ := unescape_taken (show hexDigit 0 = none from rfl) next text
        have nonzero : next ≠ 0 := by
          rintro rfl
          rw [unescape_other (by decide)] at decoded
          cases decoded
        refine zero_apart ?_ (zero_taken nonzero text) _ rest
          ((List.take_append_drop (unescape next text).2 _).trans same)
        obtain ⟨taken, size⟩ := Nat.exists_eq_add_of_lt some
        rw [size]
        simp
    · rw [stripcslashes, stripFrom_cons slash, List.cons_append] at same
      exact ih (List.cons.inj same).2

example : stripcslashes (bytes "a\\x4aq\\\"\\1019\\") = bytes "aJq\"A9\\" := by decide

end HandlebarsC.Parser
