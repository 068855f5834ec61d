import Mathlib.Algebra.Group.Int.Defs
import Mathlib.Algebra.GroupWithZero.Nat
import Mathlib.Data.List.Basic

namespace HandlebarsC

/-- The bytes of a `handlebars_string`. -/
abbrev Str := List UInt8

/-- A C string literal. -/
def bytes (text : String) : Str :=
  text.toList.map (fun c => UInt8.ofNat c.toNat)

theorem bytes_open : bytes "\x7b\x7b" = [123, 123] := by decide

theorem bytes_close : bytes "\x7d\x7d" = [125, 125] := by decide

/-- What is checked of the 256 bytes holds for each. -/
theorem forall_byte {P : UInt8 → Prop} (checked : ∀ index : Fin 256, P (UInt8.ofFin index))
    (char : UInt8) : P char :=
  checked char.toFin

/-- `%lu` -/
def decimal (number : Nat) : Str :=
  (Nat.toDigits 10 number).map fun c => UInt8.ofNat c.toNat

theorem digit_bounds (member : c ∈ Nat.toDigits 10 number) : 48 ≤ c.toNat ∧ c.toNat ≤ 57 := by
  have isDigit := Nat.isDigit_of_mem_toDigits (by decide) (by decide) member
  simp only [Char.isDigit, Bool.and_eq_true, decide_eq_true_eq] at isDigit
  exact ⟨UInt32.le_iff_toNat_le.mp isDigit.1, UInt32.le_iff_toNat_le.mp isDigit.2⟩

/-- No digit is a terminator. -/
theorem zero_not_mem_decimal (number : Nat) : (0 : UInt8) ∉ decimal number := by
  intro member
  obtain ⟨c, present, same⟩ := List.mem_map.mp member
  have bounds := digit_bounds present
  have value := congrArg UInt8.toNat same
  simp only [UInt8.toNat_ofNat', UInt8.toNat_zero] at value
  omega

theorem decimal_injective (same : decimal left = decimal right) : left = right := by
  have back : ∀ number, (decimal number).map (fun b => Char.ofNat b.toNat) =
      Nat.toDigits 10 number := by
    intro number
    rw [decimal, List.map_map]
    refine (List.map_congr_left ?_).trans (List.map_id _)
    intro c member
    have bounds := digit_bounds member
    have small : c.toNat % 256 = c.toNat := Nat.mod_eq_of_lt (by omega)
    simp [small]
  have chars : Nat.toDigits 10 left = Nat.toDigits 10 right := by
    rw [← back left, same, back right]
  rw [← Nat.ofDigitChars_ten_toDigits (n := left), chars, Nat.ofDigitChars_ten_toDigits]

/-- `struct handlebars_locinfo` -/
structure LocInfo where
  firstLine : Int
  firstColumn : Int
  lastLine : Int
  lastColumn : Int
  deriving DecidableEq, Repr, Inhabited

def LocInfo.zero : LocInfo := ⟨0, 0, 0, 0⟩

/-- `enum handlebars_error_type` -/
inductive ErrorType where
  | success
  | error
  | nomem
  | nullarg
  | parseerr
  | unknownHelper
  | unsupportedPartialArgs
  | stackOverflow
  | externalError
  deriving DecidableEq, Repr

/-- `struct handlebars_error`, without its jump buffer. -/
structure Error where
  num : ErrorType
  msg : Str
  loc : LocInfo := LocInfo.zero
  deriving DecidableEq, Repr

/-- Why there is no result: an error, or the end of the process. -/
inductive Failure where
  | error (error : Error)
  | crash
  deriving DecidableEq, Repr

/-- Compiler and VM flags, an `unsigned long`. -/
abbrev Flags := UInt64

namespace Flag

def bit (index : UInt64) : Flags := 1 <<< index

def useDepths : Flags := bit 0
def compat : Flags := useDepths
def stringParams : Flags := bit 1
def trackIds : Flags := bit 2
def noEscape : Flags := bit 3
def knownHelpersOnly : Flags := bit 4
def preventIndent : Flags := bit 5
def useData : Flags := bit 6
def explicitPartialContext : Flags := bit 7
def ignoreStandalone : Flags := bit 8
def alternateDecorators : Flags := bit 9
def strict : Flags := bit 10
def assumeObjects : Flags := bit 11
def mustacheStyleLambdas : Flags := bit 12

/-- `handlebars_compiler_flag_all` -/
def all : Flags := bit 13 - 1

end Flag

/-- `flags & flag` -/
def Flags.has (flags flag : Flags) : Bool := flags &&& flag != 0

/-- `HANDLEBARS_VERSION_INT` of version 0.7.2. -/
def handlebarsVersion : Nat := 702

end HandlebarsC
