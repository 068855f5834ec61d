import Mathlib.Data.List.TakeWhile
import HandlebarsC.Compiler.Model
import HandlebarsC.Foundation.Rounding
import HandlebarsC.Vm.Opcodes

/-!
Number literals: what the compiler makes of a NUMBER token by `strtol` and `strtod`, and what is
pushed for it.
-/

namespace HandlebarsC

open Effect

/-- A token of the lexer's rule `\-?[0-9]+(?:\.[0-9]+)?`. -/
structure NumberToken where
  negative : Bool
  whole : Str
  fraction : Option Str
  wholeDigits : ∀ char ∈ whole, isDigit char = true
  wholeSome : whole ≠ []
  fractionDigits : ∀ digits ∈ fraction, digits ≠ [] ∧ ∀ char ∈ digits, isDigit char = true

namespace NumberToken

def text (token : NumberToken) : Str :=
  (if token.negative then [45] else []) ++ token.whole ++
    (token.fraction.elim [] fun digits => 46 :: digits)

def sign (token : NumberToken) : Int := if token.negative then -1 else 1

/-- The fraction, in units of its last digit. -/
def part (token : NumberToken) : ℚ :=
  token.fraction.elim 0 fun digits => digitsValue digits / 10 ^ digits.length

/-- The number that the token is a numeral of. -/
def value (token : NumberToken) : ℚ := token.sign * (digitsValue token.whole + token.part)

end NumberToken

/-- A `double` that is no NaN; the sign of a zero makes no difference here. -/
inductive Binary64 where
  | finite (value : ℚ)
  | infinite (negative : Bool)
  deriving DecidableEq

namespace Binary64

def format : Rounding.Format := ⟨53, -1074, by decide⟩

/-- The nearest `double`. -/
def ofRat (number : ℚ) : Binary64 :=
  let rounded := format.round number
  if rounded ≤ -2 ^ 1024 then .infinite true
  else if 2 ^ 1024 ≤ rounded then .infinite false
  else .finite rounded

end Binary64

namespace Binary64

/-- What is rounded to 2^63, of the integers from there on. -/
theorem roundMagnitude_eq_iff {number : ℤ} (far : 2 ^ 63 ≤ number) :
    format.roundMagnitude number = 2 ^ 63 ↔ number ≤ 2 ^ 63 + 1024 := by
  have start : format.roundMagnitude ((2 ^ 63 : ℤ) : ℚ) = 2 ^ 63 := by decide +kernel
  have last : format.roundMagnitude ((2 ^ 63 + 1024 : ℤ) : ℚ) = 2 ^ 63 := by decide +kernel
  have past : format.roundMagnitude ((2 ^ 63 + 1025 : ℤ) : ℚ) = 2 ^ 63 + 2048 := by decide +kernel
  constructor
  · intro rounded
    by_contra beyond
    have above : format.roundMagnitude ((2 ^ 63 + 1025 : ℤ) : ℚ) ≤ format.roundMagnitude number :=
      format.roundMagnitude_mono (by norm_num) (Int.cast_le.mpr (by omega))
    rw [past, rounded] at above
    norm_num at above
  · intro within
    have positive : (0 : ℚ) < number := by
      exact_mod_cast lt_of_lt_of_le (by norm_num) far
    have low : format.roundMagnitude ((2 ^ 63 : ℤ) : ℚ) ≤ format.roundMagnitude number :=
      format.roundMagnitude_mono (by norm_num) (Int.cast_le.mpr far)
    have high : format.roundMagnitude number ≤ format.roundMagnitude ((2 ^ 63 + 1024 : ℤ) : ℚ) :=
      format.roundMagnitude_mono positive (Int.cast_le.mpr within)
    rw [start] at low
    rw [last] at high
    exact le_antisymm high low

/-- 2^63 is far from the ends of the doubles. -/
theorem limits : (-2 ^ 1024 < (2 : ℚ) ^ 63 ∧ (2 : ℚ) ^ 63 < 2 ^ 1024) ∧
    -2 ^ 1024 < -(2 : ℚ) ^ 63 ∧ -(2 : ℚ) ^ 63 < 2 ^ 1024 := by
  have less : (2 : ℚ) ^ 63 < 2 ^ 1024 := pow_lt_pow_right₀ (by norm_num) (by norm_num)
  have small : (0 : ℚ) < 2 ^ 63 := by positivity
  have large : (0 : ℚ) < 2 ^ 1024 := small.trans less
  exact ⟨⟨(neg_neg_of_pos large).trans small, less⟩, neg_lt_neg less,
    (neg_neg_of_pos small).trans large⟩

theorem ofRat_eq_finite {number value : ℚ} (low : -2 ^ 1024 < value) (high : value < 2 ^ 1024) :
    ofRat number = .finite value ↔ format.round number = value := by
  unfold ofRat
  dsimp only
  split
  · rename_i below
    exact iff_of_false nofun fun same => absurd (same ▸ below) (not_le.mpr low)
  · split
    · rename_i above
      exact iff_of_false nofun fun same => absurd (same ▸ above) (not_le.mpr high)
    · simp

/-- The doubles of integers beyond the ends of `long` against those of the ends. -/
theorem ofRat_top {number : ℤ} (far : 2 ^ 63 ≤ number) :
    ofRat number = ofRat ((2 ^ 63 - 1 : ℤ) : ℚ) ↔ number ≤ 2 ^ 63 + 1024 := by
  have top : ofRat ((2 ^ 63 - 1 : ℤ) : ℚ) = .finite (2 ^ 63) := by decide +kernel
  have positive : ¬(number : ℚ) < 0 := by
    exact_mod_cast not_lt.mpr (le_trans (by norm_num) far)
  rw [top, ofRat_eq_finite limits.1.1 limits.1.2, Rounding.Format.round, if_neg positive,
    roundMagnitude_eq_iff far]

theorem ofRat_bottom {number : ℤ} (far : number < -2 ^ 63) :
    ofRat number = ofRat ((-2 ^ 63 : ℤ) : ℚ) ↔ -2 ^ 63 - 1024 ≤ number := by
  have bottom : ofRat ((-2 ^ 63 : ℤ) : ℚ) = .finite (-2 ^ 63) := by decide +kernel
  have negative : (number : ℚ) < 0 := by
    exact_mod_cast lt_trans far (by norm_num)
  have mirrored : format.roundMagnitude ((-number : ℤ) : ℚ) = 2 ^ 63 ↔ -number ≤ 2 ^ 63 + 1024 :=
    roundMagnitude_eq_iff (by omega)
  rw [Int.cast_neg] at mirrored
  rw [bottom, ofRat_eq_finite limits.2.1 limits.2.2, Rounding.Format.round, if_pos negative,
    neg_inj, mirrored]
  omega

end Binary64

/-- `strtol` in base ten -/
def strtol (text : Str) : Int :=
  match scanLong text with
  | .number value => value
  | _ => 0

/-- The digits behind the point. -/
def fractionOf : Str → Str
  | 46 :: rest => rest.takeWhile isDigit
  | _ => []

def scanNumeral (sign : Int) (text : Str) : Binary64 :=
  let whole := text.takeWhile isDigit
  let fraction := fractionOf (text.dropWhile isDigit)
  Binary64.ofRat (sign * (digitsValue whole + digitsValue fraction / 10 ^ fraction.length))

/-- `strtod` of a numeral without an exponent. -/
def strtod : Str → Binary64
  | 45 :: rest => scanNumeral (-1) rest
  | text => scanNumeral 1 text

/-- `(double) value` -/
def doubleOfLong (value : Int) : Binary64 := Binary64.ofRat value

/-- `fv && lv && fv == (double) lv` of `handlebars_compiler_accept_number`. -/
def numberLong (text : Str) : Option Int :=
  if strtod text ≠ .finite 0 ∧ strtol text ≠ 0 ∧ strtod text = doubleOfLong (strtol text) then
    some (strtol text)
  else none

/-- A platform with the `strtol` and the `strtod` of C. -/
def Platform.readsNumbers (platform : Platform) : Platform :=
  { platform with numberLong := HandlebarsC.numberLong }

/-- What a value that is pushed for a number token owes to it. -/
structure StandsFor (token : NumberToken) (value : Value μ) : Prop where
  exact : ∀ long, value = .integer long → ∀ number : ℤ, token.value = number →
    -2 ^ 63 ≤ number → number < 2 ^ 63 → long = number
  inRange : ∀ long, value = .integer long → ∀ number : ℤ, token.value = number →
    -2 ^ 63 ≤ number ∧ number < 2 ^ 63
  truthy : value.boolval = true ↔ token.value ≠ 0

/-- The compiler emits one opcode for the token, and a VM that runs it pushes a value that stands
for the number. -/
def PushesNumber (μ κ : Type) (platform : Platform) (token : NumberToken) : Prop :=
  ∀ compiler : Compiler, ∃ (opcode : Opcode) (value : Value μ),
    Compiler.acceptLiteral platform.readsNumbers .number token.text compiler =
      (.ok () { compiler with opcodes := compiler.opcodes ++ [opcode] }, []) ∧
    opcode.type = .pushLiteral ∧ Exec.literalValue opcode.op1 = some value ∧
    (Exec.acceptPushLiteral opcode : Exec μ κ Unit) = Exec.push StackField.stack value ∧
    StandsFor token value

/-- Integers beyond the ends of `long` that are no further from them than half the distance of two
doubles there. -/
def Saturates (number : ℤ) : Prop :=
  2 ^ 63 ≤ number ∧ number ≤ 2 ^ 63 + 1024 ∨ -2 ^ 63 - 1024 ≤ number ∧ number < -2 ^ 63

theorem Saturates.far {number : ℤ} (saturates : Saturates number) :
    ¬(-2 ^ 63 ≤ number ∧ number < 2 ^ 63) := by
  unfold Saturates at saturates
  omega

theorem numberLong_some {text : Str} {long : Int} (taken : numberLong text = some long) :
    long = strtol text ∧ long ≠ 0 := by
  unfold numberLong at taken
  split at taken
  · rename_i holds
    cases taken
    exact ⟨rfl, holds.2.1⟩
  · cases taken

namespace NumberToken

variable {token : NumberToken}

theorem char_ne_minus {char : UInt8} (digit : isDigit char = true) : char ≠ 45 := by
  rintro rfl
  cases digit

/-- Behind the sign the digits and the fraction follow. -/
def unsigned (token : NumberToken) : Str :=
  token.whole ++ token.fraction.elim [] fun digits => 46 :: digits

theorem unsigned_head (token : NumberToken) :
    ∃ char rest, token.unsigned = char :: rest ∧ isDigit char = true := by
  obtain ⟨char, rest, same⟩ := List.exists_cons_of_ne_nil token.wholeSome
  refine ⟨char, rest ++ token.fraction.elim [] (fun digits => 46 :: digits), ?_, ?_⟩
  · rw [unsigned, same, List.cons_append]
  · exact token.wholeDigits char (by simp [same])

theorem text_eq (token : NumberToken) :
    token.text = if token.negative then 45 :: token.unsigned else token.unsigned := by
  unfold text unsigned
  split <;> simp

/-- The digits end before the fraction. -/
theorem digits_unsigned (token : NumberToken) :
    token.unsigned.takeWhile isDigit = token.whole ∧
      token.unsigned.dropWhile isDigit = token.fraction.elim [] fun digits => 46 :: digits := by
  unfold unsigned
  rw [List.takeWhile_append_of_pos token.wholeDigits, List.dropWhile_append_of_pos token.wholeDigits]
  cases token.fraction with
  | none => exact ⟨List.append_nil _, rfl⟩
  | some digits => exact ⟨List.append_nil _, rfl⟩

theorem scanNumeral_unsigned (token : NumberToken) :
    scanNumeral token.sign token.unsigned = Binary64.ofRat token.value := by
  obtain ⟨taken, dropped⟩ := token.digits_unsigned
  unfold scanNumeral
  rw [taken, dropped, value, part]
  cases given : token.fraction with
  | none => simp [fractionOf, digitsValue]
  | some digits =>
    have all : digits.takeWhile isDigit = digits :=
      List.takeWhile_eq_self_iff.mpr (token.fractionDigits digits given).2
    simp [fractionOf, all]

theorem strtod_text (token : NumberToken) : strtod token.text = Binary64.ofRat token.value := by
  rw [← scanNumeral_unsigned, text_eq]
  cases minus : token.negative with
  | true =>
    rw [sign, minus]
    rfl
  | false =>
    obtain ⟨char, rest, head, digit⟩ := token.unsigned_head
    have noSign := char_ne_minus digit
    rw [sign, minus, head]
    simp only [Bool.false_eq_true, if_false]
    unfold strtod
    split
    · rename_i same
      exact absurd (List.cons.inj same).1 noSign
    · rfl

theorem isSpace_of_digit {char : UInt8} (digit : isDigit char = true) : isSpace char = false := by
  have low : 48 ≤ char.toNat := by
    unfold isDigit at digit
    simp only [Bool.and_eq_true, decide_eq_true_eq] at digit
    exact UInt8.le_iff_toNat_le.mp digit.1
  unfold isSpace
  rw [Bool.or_eq_false_iff, beq_eq_false_iff_ne, Bool.and_eq_false_iff, decide_eq_false_iff_not,
    decide_eq_false_iff_not, UInt8.le_iff_toNat_le, UInt8.le_iff_toNat_le]
  constructor
  · rintro rfl
    exact absurd low (by decide)
  · right
    change ¬char.toNat ≤ 13
    omega

theorem scanDigits_unsigned (token : NumberToken) :
    scanDigits token.sign token.unsigned =
      .number (clampLong (token.sign * digitsValue token.whole)) := by
  unfold scanDigits
  rw [token.digits_unsigned.1]
  split
  · rename_i none
    exact absurd none token.wholeSome
  · rfl

theorem strtol_text (token : NumberToken) :
    strtol token.text = clampLong (token.sign * digitsValue token.whole) := by
  obtain ⟨char, rest, head, digit⟩ := token.unsigned_head
  have scanned : scanLong token.text = scanDigits token.sign token.unsigned := by
    rw [text_eq]
    cases minus : token.negative with
    | true =>
      rw [sign, minus]
      rfl
    | false =>
      rw [sign, minus, head]
      simp only [Bool.false_eq_true, if_false]
      unfold scanLong
      rw [List.dropWhile_cons_of_neg (by simp [isSpace_of_digit digit])]
      dsimp only
      rw [if_neg (char_ne_minus digit), if_neg]
      rintro rfl
      cases digit
  rw [strtol, scanned, scanDigits_unsigned]

theorem digitsValue_lt {digits : Str} (all : ∀ char ∈ digits, isDigit char = true) :
    digitsValue digits < 10 ^ digits.length := by
  have grows : ∀ (digits : Str) (before : Nat), (∀ char ∈ digits, isDigit char = true) →
      digits.foldl (fun value digit => value * 10 + (digit.toNat - 48)) before <
        (before + 1) * 10 ^ digits.length := by
    intro digits
    induction digits with
    | nil =>
      intro before _
      simp
    | cons char rest ih =>
      intro before all
      have digit := all char List.mem_cons_self
      have below : char.toNat ≤ 57 := by
        unfold isDigit at digit
        simp only [Bool.and_eq_true, decide_eq_true_eq] at digit
        exact UInt8.le_iff_toNat_le.mp digit.2
      have later := ih (before * 10 + (char.toNat - 48)) fun other member =>
        all other (List.mem_cons_of_mem _ member)
      calc _ < (before * 10 + (char.toNat - 48) + 1) * 10 ^ rest.length := later
        _ ≤ (before + 1) * 10 * 10 ^ rest.length := by
          refine Nat.mul_le_mul_right _ ?_
          omega
        _ = (before + 1) * 10 ^ (char :: rest).length := by
          rw [List.length_cons, Nat.pow_succ, Nat.mul_assoc, Nat.mul_comm 10]
  have bound := grows digits 0 all
  rwa [Nat.zero_add, Nat.one_mul] at bound

theorem part_nonneg (token : NumberToken) : 0 ≤ token.part := by
  unfold part
  cases token.fraction with
  | none => exact le_refl 0
  | some digits => exact div_nonneg (Nat.cast_nonneg _) (by positivity)

theorem part_lt_one (token : NumberToken) : token.part < 1 := by
  unfold part
  cases given : token.fraction with
  | none => exact one_pos
  | some digits =>
    have below := digitsValue_lt (token.fractionDigits digits given).2
    change (digitsValue digits : ℚ) / 10 ^ digits.length < 1
    rw [div_lt_one (by positivity)]
    exact_mod_cast below

theorem sign_eq (token : NumberToken) : token.sign = 1 ∨ token.sign = -1 := by
  unfold sign
  split <;> simp

/-- A token of an integer has only zeros behind its point. -/
theorem whole_of_integer {number : ℤ} (integer : token.value = number) :
    token.sign * digitsValue token.whole = number := by
  have low := token.part_nonneg
  have high := token.part_lt_one
  unfold value at integer
  rcases token.sign_eq with plus | minus
  · rw [plus, Int.cast_one, one_mul] at integer
    have lower : ((digitsValue token.whole : ℤ) : ℚ) ≤ number := by
      push_cast
      linarith
    have upper : (number : ℚ) < ((digitsValue token.whole + 1 : ℤ) : ℚ) := by
      push_cast
      linarith
    have lowerInt := Int.cast_le.mp lower
    have upperInt := Int.cast_lt.mp upper
    rw [plus]
    omega
  · rw [minus, Int.cast_neg, Int.cast_one, neg_one_mul] at integer
    have lower : ((-digitsValue token.whole - 1 : ℤ) : ℚ) < number := by
      push_cast
      linarith
    have upper : (number : ℚ) ≤ ((-digitsValue token.whole : ℤ) : ℚ) := by
      push_cast
      linarith
    have lowerInt := Int.cast_lt.mp lower
    have upperInt := Int.cast_le.mp upper
    rw [minus]
    omega

/-- What `strtol` makes of a token of an integer. -/
theorem strtol_integer {number : ℤ} (integer : token.value = number) :
    strtol token.text = clampLong number := by
  rw [strtol_text, token.whole_of_integer integer]

theorem strtod_integer {number : ℤ} (integer : token.value = number) :
    strtod token.text = Binary64.ofRat number := by
  rw [strtod_text, integer]

/-- An integer beyond the ends of `long` is taken for the end exactly if its double is that of the
end. -/
theorem numberLong_far {number : ℤ} (integer : token.value = number)
    (far : ¬(-2 ^ 63 ≤ number ∧ number < 2 ^ 63)) :
    (numberLong token.text).isSome = true ↔ Saturates number := by
  have taken : (numberLong token.text).isSome = true ↔
      strtod token.text ≠ .finite 0 ∧ strtol token.text ≠ 0 ∧
        strtod token.text = doubleOfLong (strtol token.text) := by
    unfold numberLong
    split
    · rename_i holds
      exact iff_of_true rfl holds
    · rename_i fails
      exact iff_of_false nofun fails
  rw [taken, strtol_integer integer, strtod_integer integer, doubleOfLong]
  unfold Saturates
  rcases not_and_or.mp far with below | above
  · have clamped : clampLong number = -2 ^ 63 := by
      unfold clampLong
      omega
    have nonzero : Binary64.ofRat ((-2 ^ 63 : ℤ) : ℚ) ≠ .finite 0 := by decide +kernel
    rw [clamped, Binary64.ofRat_bottom (by omega)]
    constructor
    · rintro ⟨-, -, near⟩
      exact .inr ⟨near, by omega⟩
    · rintro (top | ⟨near, -⟩)
      · omega
      · have same := (Binary64.ofRat_bottom (by omega)).mpr near
        exact ⟨by rw [same]; exact nonzero, by decide, near⟩
  · have clamped : clampLong number = 2 ^ 63 - 1 := by
      unfold clampLong
      omega
    have nonzero : Binary64.ofRat ((2 ^ 63 - 1 : ℤ) : ℚ) ≠ .finite 0 := by decide +kernel
    rw [clamped, Binary64.ofRat_top (by omega)]
    constructor
    · rintro ⟨-, -, near⟩
      exact .inl ⟨by omega, near⟩
    · rintro (⟨-, near⟩ | bottom)
      · have same := (Binary64.ofRat_top (by omega)).mpr near
        exact ⟨by rw [same]; exact nonzero, by decide, near⟩
      · omega

theorem value_of_zero (written : token.text = bytes "0") : token.value = 0 := by
  have head := token.text_eq
  rw [written] at head
  cases minus : token.negative with
  | true =>
    rw [minus] at head
    cases (List.cons.inj head).1
  | false =>
    rw [minus] at head
    have digits : token.unsigned = bytes "0" := head.symm
    obtain ⟨whole, fraction⟩ := token.digits_unsigned
    rw [digits] at whole fraction
    have wholeZero : token.whole = bytes "0" := whole.symm
    cases given : token.fraction with
    | none =>
      rw [value, part, given, wholeZero]
      change _ * (((0 : ℕ) : ℚ) + 0) = 0
      simp
    | some rest =>
      rw [given] at fraction
      cases fraction

/-- The value of the literal. -/
def literal (μ : Type) (token : NumberToken) : Value μ :=
  if token.text = bytes "0" then .integer 0
  else match numberLong token.text with
    | some long => .integer long
    | none => .string token.text false

theorem chars (token : NumberToken) :
    ∀ char ∈ token.text, char = 45 ∨ char = 46 ∨ isDigit char = true := by
  intro char member
  unfold text at member
  rcases List.mem_append.mp member with signed | later
  · rcases List.mem_append.mp signed with minus | digit
    · split at minus
      · exact .inl (List.mem_singleton.mp minus)
      · cases minus
    · exact .inr (.inr (token.wholeDigits char digit))
  · cases given : token.fraction with
    | none =>
      rw [given] at later
      cases later
    | some digits =>
      rw [given] at later
      rcases List.mem_cons.mp later with point | digit
      · exact .inr (.inl point)
      · exact .inr (.inr ((token.fractionDigits digits given).2 char digit))

theorem text_ne (token : NumberToken) (text : Str)
    (letter : ∃ char ∈ text, char ≠ 45 ∧ char ≠ 46 ∧ isDigit char = false) : token.text ≠ text := by
  rintro rfl
  obtain ⟨char, member, notMinus, notPoint, notDigit⟩ := letter
  rcases token.chars char member with minus | point | digit
  · exact notMinus minus
  · exact notPoint point
  · rw [notDigit] at digit
    cases digit

theorem text_ne_nil (token : NumberToken) : token.text ≠ [] := by
  obtain ⟨char, rest, head, -⟩ := token.unsigned_head
  rw [text_eq, head]
  split <;> exact List.cons_ne_nil _ _

/-- A token that is pushed as a string is true. -/
theorem boolval_text (token : NumberToken) (other : token.text ≠ bytes "0") :
    (Value.string token.text false : Value μ).boolval = true := by
  have whole : cstring token.text = token.text := by
    refine List.takeWhile_eq_self_iff.mpr fun char member => ?_
    rcases token.chars char member with rfl | rfl | digit
    · decide
    · decide
    · refine bne_iff_ne.mpr ?_
      rintro rfl
      cases digit
  change (!token.text.isEmpty && cstring token.text != bytes "0") = true
  rw [whole, Bool.and_eq_true, Bool.not_eq_true', List.isEmpty_eq_false_iff]
  exact ⟨token.text_ne_nil, bne_iff_ne.mpr other⟩

/-- The operand of the literal. -/
def operand (token : NumberToken) : Operand :=
  if token.text = bytes "0" then .long 0
  else match HandlebarsC.numberLong token.text with
    | some long => .long long
    | none => .string token.text

/-- The opcode of the literal. -/
def pushOpcode (token : NumberToken) : Opcode :=
  { opcodeCtor .pushLiteral with op1 := token.operand }

theorem acceptLiteral_eq (token : NumberToken) (platform : Platform) :
    Compiler.acceptLiteral platform.readsNumbers .number token.text =
      Compiler.opcode token.pushOpcode := by
  unfold Compiler.acceptLiteral Compiler.acceptNumber pushOpcode operand
  change (if _ then _ else match HandlebarsC.numberLong token.text with | some _ => _ | none => _) = _
  by_cases zero : token.text = bytes "0"
  · rw [if_pos zero, if_pos zero]
    rfl
  · rw [if_neg zero, if_neg zero]
    cases HandlebarsC.numberLong token.text <;> rfl

theorem literalValue_operand (token : NumberToken) :
    Exec.literalValue token.operand = some (token.literal μ) := by
  unfold operand literal
  by_cases zero : token.text = bytes "0"
  · rw [if_pos zero, if_pos zero]
    rfl
  · rw [if_neg zero, if_neg zero]
    cases HandlebarsC.numberLong token.text with
    | some long => rfl
    | none =>
      refine if_neg ?_
      rintro (undefined | null)
      · exact token.text_ne _ ⟨117, by decide, by decide, by decide, by decide⟩ undefined
      · exact token.text_ne _ ⟨117, by decide, by decide, by decide, by decide⟩ null

theorem pushes_iff (token : NumberToken) (platform : Platform) :
    PushesNumber μ κ platform token ↔ StandsFor token (token.literal μ) := by
  constructor
  · intro pushes
    obtain ⟨opcode, value, emitted, -, read, -, stands⟩ := pushes (Compiler.start 0 [])
    rw [acceptLiteral_eq] at emitted
    have after := (Outcome.ok.inj (Prod.mk.inj emitted).1).2
    have same := List.append_cancel_left (congrArg Compiler.opcodes after)
    rw [← (List.cons.inj same).1] at read
    have literal : some (token.literal μ) = some value := (token.literalValue_operand).symm.trans read
    rw [Option.some.inj literal]
    exact stands
  · intro stands compiler
    refine ⟨token.pushOpcode.place (compiler.nodeLoc token.pushOpcode), token.literal μ, ?_, rfl,
      token.literalValue_operand, ?_, stands⟩
    · rw [acceptLiteral_eq]
      rfl
    · unfold Exec.acceptPushLiteral
      change (Exec.nonnull (Exec.literalValue token.operand) >>= _) = _
      rw [token.literalValue_operand, Exec.nonnull_some, pure_bind]

end NumberToken

/-- A number literal stands for its number, unless it is a zero that is not written `0` or an
integer beyond `long` whose double is that of the end of `long`. -/
theorem number_literal_iff (μ κ : Type) (platform : Platform) (token : NumberToken) :
    PushesNumber μ κ platform token ↔
      (token.value = 0 → token.text = bytes "0") ∧
        ∀ number : ℤ, token.value = number → ¬Saturates number := by
  rw [token.pushes_iff]
  by_cases written : token.text = bytes "0"
  · have zero := token.value_of_zero written
    unfold NumberToken.literal
    rw [if_pos written, zero]
    refine iff_of_true ⟨?_, ?_, ?_⟩ ⟨fun _ => written, ?_⟩
    · intro long same number integer _ _
      cases same
      exact_mod_cast zero.symm.trans integer
    · intro long _ number integer
      have none : (0 : ℤ) = number := by exact_mod_cast zero.symm.trans integer
      omega
    · exact iff_of_false nofun fun nonzero => nonzero zero
    · intro number integer
      have none : (0 : ℤ) = number := by exact_mod_cast integer
      unfold Saturates
      omega
  · unfold NumberToken.literal
    rw [if_neg written]
    cases taken : numberLong token.text with
    | none =>
      have true := token.boolval_text (μ := μ) written
      constructor
      · intro stands
        refine ⟨fun zero => absurd zero (stands.truthy.mp true), fun number integer beyond => ?_⟩
        have some := (NumberToken.numberLong_far integer beyond.far).mpr beyond
        rw [taken] at some
        cases some
      · rintro ⟨zero, -⟩
        exact ⟨nofun, nofun, iff_of_true true fun none => written (zero none)⟩
    | some long =>
      obtain ⟨same, nonzero⟩ := numberLong_some taken
      have value : token.value ≠ 0 := by
        intro none
        have integer : token.value = ((0 : ℤ) : ℚ) := by exact_mod_cast none
        exact nonzero (same.trans (NumberToken.strtol_integer integer))
      constructor
      · intro stands
        refine ⟨fun none => absurd none value, fun number integer beyond => ?_⟩
        exact beyond.far (stands.inRange long rfl number integer)
      · rintro ⟨-, near⟩
        refine ⟨?_, ?_, iff_of_true (bne_iff_ne.mpr nonzero) value⟩
        · intro other equal number integer low high
          cases equal
          rw [same, NumberToken.strtol_integer integer]
          unfold clampLong
          omega
        · intro other _ number integer
          by_contra far
          exact near number integer
            ((NumberToken.numberLong_far integer far).mp (by rw [taken]; rfl))

/-- `-0` -/
def minusZero : NumberToken := ⟨true, bytes "0", none, by decide +kernel, by decide, nofun⟩

/-- `9223372036854775808` -/
def pastLong : NumberToken :=
  ⟨false, bytes "9223372036854775808", none, by decide +kernel, by decide, nofun⟩

/-- `-0` is pushed as a string, which is true, and the integer behind the greatest `long` as that. -/
theorem number_literals_differ : ∃ platform : Platform,
    ¬PushesNumber Unit Unit platform minusZero ∧ ¬PushesNumber Unit Unit platform pastLong := by
  refine ⟨⟨fun _ => 0, fun _ => none, fun _ => 0, fun _ => []⟩, ?_, ?_⟩
  · intro pushes
    have stands := (minusZero.pushes_iff _).mp pushes
    have zero : minusZero.value = 0 := by decide +kernel
    have true : (minusZero.literal Unit).boolval = true := by decide +kernel
    exact stands.truthy.mp true zero
  · intro pushes
    have stands := (pastLong.pushes_iff _).mp pushes
    have taken : numberLong pastLong.text = some (2 ^ 63 - 1) := by decide +kernel
    have pushed : pastLong.literal Unit = .integer (2 ^ 63 - 1) := by
      unfold NumberToken.literal
      rw [if_neg (by decide), taken]
    have value : pastLong.value = ((2 ^ 63 : ℤ) : ℚ) := by decide +kernel
    exact absurd (stands.inRange _ pushed _ value).2 (lt_irrefl _)

end HandlebarsC
