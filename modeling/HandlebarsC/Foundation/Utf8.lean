import Mathlib.Data.List.Basic

/-!
The sequences of bytes that UTF-8 writes numbers with. Surrogates are numbers like others.
-/

namespace Utf8

/-- The numbers that are written are smaller. -/
def bound : Nat := 0x110000

/-- A byte behind the first one of a sequence, with the last six bits of a number. -/
def tail (number : Nat) : UInt8 := UInt8.ofNat (0x80 + number % 0x40)

def encode (number : Nat) : List UInt8 :=
  if number < 0x80 then [UInt8.ofNat number]
  else if number < 0x800 then [UInt8.ofNat (0xC0 + number / 0x40), tail number]
  else if number < 0x10000 then
    [UInt8.ofNat (0xE0 + number / 0x1000), tail (number / 0x40), tail number]
  else
    [UInt8.ofNat (0xF0 + number / 0x40000), tail (number / 0x1000), tail (number / 0x40),
      tail number]

/-- A text is read as numbers from its start to its end. -/
def Encoded (text : List UInt8) : Prop :=
  ∃ numbers : List Nat, (∀ number ∈ numbers, number < bound) ∧ text = numbers.flatMap encode

/-- What is left of a sequence that is cut off behind its first byte or a later one. -/
def Cut (text : List UInt8) : Prop :=
  text ≠ [] ∧ ∃ number < bound, text <+: encode number ∧ text ≠ encode number

/-- A text starts with a sequence. -/
def Begins (text : List UInt8) : Prop := ∃ number < bound, encode number <+: text

def Within (low high : Nat) (byte : UInt8) : Prop := low ≤ byte.toNat ∧ byte.toNat ≤ high

instance : Decidable (Within low high byte) := inferInstanceAs (Decidable (_ ∧ _))

/-- The bytes that may follow each other. -/
inductive Sequence : List UInt8 → Prop where
  | one (first : Within 0x00 0x7F a) : Sequence [a]
  | two (first : Within 0xC2 0xDF a) (second : Within 0x80 0xBF b) : Sequence [a, b]
  | three (first : Within 0xE1 0xEF a) (second : Within 0x80 0xBF b) (third : Within 0x80 0xBF c) :
      Sequence [a, b, c]
  | lowThree (first : Within 0xE0 0xE0 a) (second : Within 0xA0 0xBF b)
      (third : Within 0x80 0xBF c) : Sequence [a, b, c]
  | four (first : Within 0xF1 0xF3 a) (second : Within 0x80 0xBF b) (third : Within 0x80 0xBF c)
      (fourth : Within 0x80 0xBF d) : Sequence [a, b, c, d]
  | lowFour (first : Within 0xF0 0xF0 a) (second : Within 0x90 0xBF b)
      (third : Within 0x80 0xBF c) (fourth : Within 0x80 0xBF d) : Sequence [a, b, c, d]
  | highFour (first : Within 0xF4 0xF4 a) (second : Within 0x80 0x8F b)
      (third : Within 0x80 0xBF c) (fourth : Within 0x80 0xBF d) : Sequence [a, b, c, d]

theorem ofNat_eq {number : Nat} {byte : UInt8} (same : number = byte.toNat) :
    UInt8.ofNat number = byte := by
  rw [same]
  exact UInt8.ofNat_toNat

theorem within_ofNat {number : Nat} (low : first ≤ number) (high : number ≤ last) (byte : last < 256) :
    Within first last (UInt8.ofNat number) := by
  have small : (UInt8.ofNat number).toNat = number :=
    UInt8.toNat_ofNat_of_lt' (Nat.lt_of_le_of_lt high byte)
  unfold Within
  rw [small]
  exact ⟨low, high⟩

theorem within_tail (number : Nat) : Within 0x80 0xBF (tail number) :=
  within_ofNat (by omega) (by omega) (by omega)

theorem tail_eq {number : Nat} {byte : UInt8} (within : Within 0x80 0xBF byte)
    (same : number % 0x40 = byte.toNat - 0x80) : tail number = byte := by
  obtain ⟨low, -⟩ := within
  exact ofNat_eq (by omega)

theorem encode_one (small : number < 0x80) : encode number = [UInt8.ofNat number] := if_pos small

theorem encode_two (low : 0x80 ≤ number) (high : number < 0x800) :
    encode number = [UInt8.ofNat (0xC0 + number / 0x40), tail number] := by
  rw [encode, if_neg (by omega), if_pos high]

theorem encode_three (low : 0x800 ≤ number) (high : number < 0x10000) :
    encode number =
      [UInt8.ofNat (0xE0 + number / 0x1000), tail (number / 0x40), tail number] := by
  rw [encode, if_neg (by omega), if_neg (by omega), if_pos high]

theorem encode_four (low : 0x10000 ≤ number) :
    encode number =
      [UInt8.ofNat (0xF0 + number / 0x40000), tail (number / 0x1000), tail (number / 0x40),
        tail number] := by
  rw [encode, if_neg (by omega), if_neg (by omega), if_neg (by omega)]

theorem sequence_encode (small : number < bound) : Sequence (encode number) := by
  unfold bound at small
  by_cases one : number < 0x80
  · rw [encode_one one]
    exact .one (within_ofNat (Nat.zero_le _) (by omega) (by omega))
  by_cases two : number < 0x800
  · rw [encode_two (by omega) two]
    exact .two (within_ofNat (by omega) (by omega) (by omega)) (within_tail _)
  by_cases three : number < 0x10000
  · rw [encode_three (by omega) three]
    by_cases low : number < 0x1000
    · exact .lowThree (within_ofNat (by omega) (by omega) (by omega))
        (within_ofNat (by omega) (by omega) (by omega)) (within_tail _)
    · exact .three (within_ofNat (by omega) (by omega) (by omega)) (within_tail _) (within_tail _)
  · rw [encode_four (by omega)]
    by_cases low : number < 0x40000
    · exact .lowFour (within_ofNat (by omega) (by omega) (by omega))
        (within_ofNat (by omega) (by omega) (by omega)) (within_tail _) (within_tail _)
    · by_cases high : number < 0x100000
      · exact .four (within_ofNat (by omega) (by omega) (by omega)) (within_tail _)
          (within_tail _) (within_tail _)
      · exact .highFour (within_ofNat (by omega) (by omega) (by omega))
          (within_ofNat (by omega) (by omega) (by omega)) (within_tail _) (within_tail _)

theorem exists_encode_two (first : Within 0xC2 0xDF a) (second : Within 0x80 0xBF b) :
    ∃ number < bound, encode number = [a, b] := by
  obtain ⟨low, high⟩ := first
  obtain ⟨least, most⟩ := id second
  refine ⟨(a.toNat - 0xC0) * 0x40 + (b.toNat - 0x80), by unfold bound; omega, ?_⟩
  rw [encode_two (by omega) (by omega)]
  simp only [List.cons.injEq, and_true]
  exact ⟨ofNat_eq (by omega), tail_eq second (by omega)⟩

/-- Three bytes whose number is too large for two. -/
theorem exists_encode_three (first : Within 0xE0 0xEF a) (second : Within 0x80 0xBF b)
    (third : Within 0x80 0xBF c) (long : 0xE0 < a.toNat ∨ 0xA0 ≤ b.toNat) :
    ∃ number < bound, encode number = [a, b, c] := by
  obtain ⟨low, high⟩ := first
  obtain ⟨least, most⟩ := id second
  obtain ⟨floor, ceiling⟩ := id third
  refine ⟨(a.toNat - 0xE0) * 0x1000 + (b.toNat - 0x80) * 0x40 + (c.toNat - 0x80),
    by unfold bound; omega, ?_⟩
  rw [encode_three (by omega) (by omega)]
  simp only [List.cons.injEq, and_true]
  exact ⟨ofNat_eq (by omega), tail_eq second (by omega), tail_eq third (by omega)⟩

/-- Four bytes whose number is too large for three, and not too large. -/
theorem exists_encode_four (first : Within 0xF0 0xF4 a) (second : Within 0x80 0xBF b)
    (third : Within 0x80 0xBF c) (fourth : Within 0x80 0xBF d)
    (long : 0xF0 < a.toNat ∨ 0x90 ≤ b.toNat) (short : a.toNat < 0xF4 ∨ b.toNat < 0x90) :
    ∃ number < bound, encode number = [a, b, c, d] := by
  obtain ⟨low, high⟩ := first
  obtain ⟨least, most⟩ := id second
  obtain ⟨floor, ceiling⟩ := id third
  obtain ⟨under, above⟩ := id fourth
  refine ⟨(a.toNat - 0xF0) * 0x40000 + (b.toNat - 0x80) * 0x1000 + (c.toNat - 0x80) * 0x40 +
    (d.toNat - 0x80), by unfold bound; omega, ?_⟩
  rw [encode_four (by omega)]
  simp only [List.cons.injEq, and_true]
  exact ⟨ofNat_eq (by omega), tail_eq second (by omega), tail_eq third (by omega),
    tail_eq fourth (by omega)⟩

/-- A part of a range. -/
theorem Within.widen (within : Within first last byte) (low : least ≤ first) (high : last ≤ most) :
    Within least most byte :=
  ⟨Nat.le_trans low within.1, Nat.le_trans within.2 high⟩

theorem Within.above (within : Within first last byte) (low : least ≤ first) : least ≤ byte.toNat :=
  Nat.le_trans low within.1

/-- The sequences are those that numbers are written as. -/
theorem sequence_iff (bytes : List UInt8) :
    Sequence bytes ↔ ∃ number < bound, encode number = bytes := by
  constructor
  · intro sequence
    cases sequence with
    | @one a first =>
      obtain ⟨-, high⟩ := first
      exact ⟨a.toNat, by unfold bound; omega, (encode_one (by omega)).trans (by rw [UInt8.ofNat_toNat])⟩
    | two first second => exact exists_encode_two first second
    | three first second third =>
      have long := first.1
      exact exists_encode_three (first.widen (by decide) (by decide)) second third (.inl long)
    | lowThree first second third =>
      have long := second.1
      exact exists_encode_three (first.widen (by decide) (by decide))
        (second.widen (by decide) (by decide)) third (.inr long)
    | four first second third fourth =>
      have long := first.1
      have short := first.2
      exact exists_encode_four (first.widen (by decide) (by decide)) second third fourth
        (.inl long) (.inl (Nat.lt_succ_of_le short))
    | lowFour first second third fourth =>
      have long := second.1
      have short := first.2
      exact exists_encode_four (first.widen (by decide) (by decide))
        (second.widen (by decide) (by decide)) third fourth (.inr long) (.inl (by omega))
    | highFour first second third fourth =>
      have long := first.1
      have short := second.2
      exact exists_encode_four (first.widen (by decide) (by decide))
        (second.widen (by decide) (by decide)) third fourth (.inl (by omega)) (.inr (by omega))
  · rintro ⟨number, small, rfl⟩
    exact sequence_encode small

theorem encode_ne_nil (number : Nat) : encode number ≠ [] := by
  unfold encode
  split_ifs <;> exact List.cons_ne_nil _ _

/-- The bytes of a sequence of more than one byte are not those of characters. -/
theorem Sequence.high (sequence : Sequence bytes) (several : bytes.length ≠ 1) :
    ∀ byte ∈ bytes, 0x80 ≤ byte.toNat := by
  cases sequence with
  | one first => exact absurd rfl several
  | two first second =>
    simp only [List.forall_mem_cons]
    exact ⟨first.above (by decide), second.1, nofun⟩
  | three first second third =>
    simp only [List.forall_mem_cons]
    exact ⟨first.above (by decide), second.1, third.1, nofun⟩
  | lowThree first second third =>
    simp only [List.forall_mem_cons]
    exact ⟨first.above (by decide), second.above (by decide), third.1, nofun⟩
  | four first second third fourth =>
    simp only [List.forall_mem_cons]
    exact ⟨first.above (by decide), second.1, third.1, fourth.1, nofun⟩
  | lowFour first second third fourth =>
    simp only [List.forall_mem_cons]
    exact ⟨first.above (by decide), second.above (by decide), third.1, fourth.1, nofun⟩
  | highFour first second third fourth =>
    simp only [List.forall_mem_cons]
    exact ⟨first.above (by decide), second.1, third.1, fourth.1, nofun⟩

theorem encoded_nil : Encoded [] := ⟨[], nofun, rfl⟩

theorem Encoded.cons (encoded : Encoded text) (small : number < bound) :
    Encoded (encode number ++ text) := by
  obtain ⟨numbers, all, rfl⟩ := encoded
  exact ⟨number :: numbers, List.forall_mem_cons.mpr ⟨small, all⟩, List.flatMap_cons.symm⟩

/-- A text is encoded up to some place, where it ends or no sequence starts. -/
theorem exists_encoded_front (text : List UInt8) :
    ∃ front rest, text = front ++ rest ∧ Encoded front ∧ (rest = [] ∨ ¬Begins rest) := by
  induction size : text.length using Nat.strongRecOn generalizing text with
  | ind size ih =>
    by_cases begins : Begins text
    · obtain ⟨number, small, later, rfl⟩ := begins
      have positive := List.length_pos_of_ne_nil (encode_ne_nil number)
      rw [List.length_append] at size
      obtain ⟨front, rest, rfl, encoded, ends⟩ := ih later.length (by omega) later rfl
      exact ⟨encode number ++ front, rest, (List.append_assoc ..).symm, encoded.cons small, ends⟩
    · exact ⟨[], text, rfl, encoded_nil, .inr begins⟩

end Utf8
