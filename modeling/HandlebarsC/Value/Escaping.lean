import HandlebarsC.Core.Value
import HandlebarsC.Foundation.Escape

/-!
What `handlebars_value_expression_append` writes of values whose strings are
not marked as safe.
-/

namespace HandlebarsC

open Escape

/-- The entities of `htmlspecialchars` -/
def entities : List Str :=
  [bytes "&amp;", bytes "&quot;", bytes "&#x27;", bytes "&lt;", bytes "&gt;", bytes "&#x60;"]

/-- The characters that `htmlspecialchars` has an entity for. -/
def Special (char : UInt8) : Prop := char ∈ bytes "&\"'<>`"

instance : DecidablePred Special := fun char => inferInstanceAs (Decidable (char ∈ bytes _))

/-- No special character stands raw: the brackets and quotes do not occur, and an ampersand
starts an entity. -/
structure Escaped (text : Str) : Prop where
  raw : ∀ char ∈ bytes "<>\"'`", char ∉ text
  ampersand : ∀ before after, text = before ++ 38 :: after →
    ∃ entity ∈ entities, entity <+: 38 :: after

theorem escaped_of_clean (clean : Clean Special entities text) : Escaped text where
  raw := by
    intro char member
    have isSpecial : Special char := by
      revert char
      decide +kernel
    have different : char ≠ 38 := by
      rintro rfl
      revert member
      decide
    refine clean.not_mem isSpecial ?_
    intro entity known
    have starts : ∀ entity ∈ entities, entity.head? = some 38 := by decide
    obtain ⟨tail, rfl⟩ := List.head?_eq_some_iff.mp (starts entity known)
    exact ⟨38, tail, rfl, different.symm⟩
  ampersand before after same := clean before 38 after same (by decide)

/-- The characters that `%g` writes, in numbers and in `inf` and `nan`. -/
def IsNumberChar (char : UInt8) : Prop := isDigit char = true ∨ char ∈ bytes "+-.aefin"

/-- `%g` writes numbers. -/
def FormatsNumbers (platform : Platform) : Prop :=
  ∀ double, ∀ char ∈ platform.formatDouble double, IsNumberChar char

theorem IsNumberChar.not_special (number : IsNumberChar char) : ¬Special char := by
  intro isSpecial
  have plain : ∀ char ∈ bytes "&\"'<>`", ¬(isDigit char = true ∨ char ∈ bytes "+-.aefin") := by
    decide +kernel
  exact plain char isSpecial number

theorem decimal_isNumberChar (member : char ∈ decimal number) : IsNumberChar char := by
  obtain ⟨digit, present, rfl⟩ := List.mem_map.mp member
  have bounds := digit_bounds present
  apply Or.inl
  unfold isDigit
  simp only [Bool.and_eq_true, decide_eq_true_eq, UInt8.le_iff_toNat_le, UInt8.toNat_ofNat']
  constructor
  · change 48 ≤ _
    omega
  · change _ ≤ 57
    omega

theorem clean_numbers (numbers : ∀ char ∈ text, IsNumberChar char) :
    Clean Special entities text :=
  .plain fun char member => (numbers char member).not_special

theorem clean_formatLong (value : Int) : Clean Special entities (formatLong value) := by
  apply clean_numbers
  intro char member
  cases value with
  | ofNat number => exact decimal_isNumberChar member
  | negSucc number =>
    rcases List.mem_append.mp member with sign | digit
    · rw [show char = 45 by simpa [bytes] using sign]
      exact .inr (by decide)
    · exact decimal_isNumberChar digit

theorem clean_boolean (value : Bool) :
    Clean Special entities (if value then bytes "true" else bytes "false") := by
  cases value
  · exact .plain (by decide +kernel)
  · exact .plain (by decide +kernel)

/-- Each special character has its entity, and no other character needs one. -/
theorem clean_htmlspecialchar (char : UInt8) : Clean Special entities (htmlspecialchar char) := by
  have entity : ∀ text ∈ entities, Clean Special entities text := by
    intro text known
    have starts : ∀ text ∈ entities, text.head? = some 38 := by decide
    have plain : ∀ text ∈ entities, ∀ char ∈ text.tail, ¬Special char := by decide +kernel
    obtain ⟨tail, rfl⟩ := List.head?_eq_some_iff.mp (starts text known)
    exact .entity known (plain _ known)
  unfold htmlspecialchar
  split_ifs with amp quot apos less greater grave
  · exact entity _ (by decide)
  · exact entity _ (by decide)
  · exact entity _ (by decide)
  · exact entity _ (by decide)
  · exact entity _ (by decide)
  · exact entity _ (by decide)
  · refine .plain ?_
    intro other member isSpecial
    obtain rfl := List.mem_singleton.mp member
    have listed : other ∈ [38, 34, 39, 60, 62, 96] := isSpecial
    simp_all

theorem clean_htmlspecialchars (text : Str) : Clean Special entities (htmlspecialchars text) :=
  .flatMap _ clean_htmlspecialchar text

namespace Json

mutual

theorem clean_expression (formats : FormatsNumbers platform) (stale : Str)
    (before : Clean Special entities stale) (json : Json) :
    Clean Special entities (json.expression platform true stale) := by
  cases json with
  | null => simpa only [expression] using before
  | boolean value => simpa only [expression] using clean_boolean value
  | int value => simpa only [expression] using clean_formatLong value
  | double value => simpa only [expression] using clean_numbers (formats value)
  | string value => simpa [expression] using clean_htmlspecialchars value
  | array items =>
    simpa only [expression] using clean_expressionItems formats none (by simp) items
  | object entries => simpa only [expression] using .nil

/-- What the item before left in the cell of the iteration is clean too. -/
theorem clean_expressionItems (formats : FormatsNumbers platform) (previous : Option Str)
    (before : ∀ text, previous = some text → Clean Special entities text) (items : List Json) :
    Clean Special entities (expressionItems platform true previous items) := by
  cases items with
  | nil => simpa only [expressionItems] using .nil
  | cons item rest =>
    have stale : Clean Special entities (previous.getD []) := by
      cases previous with
      | none => exact .nil
      | some text => exact before text rfl
    have text := clean_expression formats (previous.getD []) stale item
    have comma : Clean Special entities (if previous.isSome then bytes "," else []) := by
      split
      · exact .plain (by decide +kernel)
      · exact .nil
    have later := clean_expressionItems formats (some _)
      (fun _ same => Option.some.inj same ▸ text) rest
    simpa only [expressionItems] using (comma.append text).append later

end

end Json

namespace Value

variable {μ : Type}

mutual

/-- No string of the value is marked as safe, in arrays of any depth. -/
def Unmarked : Value μ → Prop
  | string _ safe => safe = false
  | array _ items => UnmarkedItems items
  | _ => True

def UnmarkedItems : List (Value μ) → Prop
  | [] => True
  | item :: rest => Unmarked item ∧ UnmarkedItems rest

end

mutual

theorem clean_expression (formats : FormatsNumbers platform) (value : Value μ)
    (unmarked : value.Unmarked) : Clean Special entities (value.expression platform true) := by
  cases value with
  | boolean bval => simpa only [expression] using clean_boolean bval
  | integer lval => simpa only [expression] using clean_formatLong lval
  | float dval => simpa only [expression] using clean_numbers (formats dval)
  | string val safe =>
    have plain : safe = false := unmarked
    simpa [expression, plain] using clean_htmlspecialchars val
  | array addr items =>
    simpa only [expression] using clean_expressionItems formats true items unmarked
  | user addr json =>
    simpa only [expression] using json.clean_expression formats [] .nil
  | _ => simpa only [expression] using .nil

theorem clean_expressionItems (formats : FormatsNumbers platform) (first : Bool)
    (items : List (Value μ)) (unmarked : UnmarkedItems items) :
    Clean Special entities (expressionItems platform true first items) := by
  cases items with
  | nil => simpa only [expressionItems] using .nil
  | cons item rest =>
    have comma : Clean Special entities (if first then [] else bytes ",") := by
      split
      · exact .nil
      · exact .plain (by decide +kernel)
    have text := clean_expression formats item unmarked.1
    have later := clean_expressionItems formats false rest unmarked.2
    simpa only [expressionItems] using (comma.append text).append later

end

end Value

end HandlebarsC
