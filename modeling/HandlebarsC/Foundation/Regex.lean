import Mathlib.Data.List.Basic

/-!
Regular expressions over classes of characters, and the longest prefix of a text
that one matches, found by derivatives.
-/

inductive Regex (α : Type) where
  | never
  | blank
  | char (accepts : α → Bool)
  | either (left right : Regex α)
  | chain (first second : Regex α)
  | star (body : Regex α)

namespace Regex

variable {α : Type}

def Matches : Regex α → List α → Prop
  | never, _ => False
  | blank, text => text = []
  | char accepts, text => ∃ char, accepts char = true ∧ text = [char]
  | either left right, text => left.Matches text ∨ right.Matches text
  | chain first second, text =>
    ∃ before after, text = before ++ after ∧ first.Matches before ∧ second.Matches after
  | star body, text => ∃ parts : List (List α), text = parts.flatten ∧
      ∀ part ∈ parts, body.Matches part

/-- Whether the empty text matches -/
def nullable : Regex α → Bool
  | never | char _ => false
  | blank | star _ => true
  | either left right => left.nullable || right.nullable
  | chain first second => first.nullable && second.nullable

def isNever : Regex α → Bool
  | never => true
  | _ => false

/-- `either` without alternatives that never match -/
def choose (left right : Regex α) : Regex α :=
  match left, right with
  | never, _ => right
  | _, never => left
  | _, _ => either left right

/-- `chain` without parts that never match -/
def follow (first second : Regex α) : Regex α :=
  match first with
  | never => never
  | blank => second
  | _ => chain first second

/-- What matches the rest of a text behind its first character. -/
def derive : Regex α → α → Regex α
  | never, _ | blank, _ => never
  | char accepts, c => if accepts c then blank else never
  | either left right, c => (left.derive c).choose (right.derive c)
  | chain first second, c =>
    if first.nullable then ((first.derive c).follow second).choose (second.derive c)
    else (first.derive c).follow second
  | star body, c => (body.derive c).follow (star body)

theorem nullable_iff (regex : Regex α) : regex.nullable = true ↔ regex.Matches [] := by
  induction regex with
  | never => simp [nullable, Matches]
  | blank => simp [nullable, Matches]
  | char accepts => simp [nullable, Matches]
  | either left right left_ih right_ih => simp [nullable, Matches, left_ih, right_ih]
  | chain first second first_ih second_ih =>
    simp [nullable, Matches, first_ih, second_ih, List.append_eq_nil_iff]
  | star body _ => exact iff_of_true rfl ⟨[], rfl, by simp⟩

theorem choose_matches (left right : Regex α) :
    (left.choose right).Matches text ↔ left.Matches text ∨ right.Matches text := by
  unfold choose
  split <;> simp [Matches]

theorem follow_matches (first second : Regex α) :
    (first.follow second).Matches text ↔ (first.chain second).Matches text := by
  unfold follow
  split
  · simp [Matches]
  · simp [Matches]
  · rfl

theorem star_nil (body : Regex α) : (star body).Matches [] := ⟨[], rfl, by simp⟩

theorem star_append {body : Regex α} (first : body.Matches part) (later : (star body).Matches text) :
    (star body).Matches (part ++ text) := by
  obtain ⟨parts, rfl, all⟩ := later
  exact ⟨part :: parts, rfl, List.forall_mem_cons.mpr ⟨first, all⟩⟩

/-- The parts of a repetition may be taken nonempty. -/
theorem star_matches_cons (body : Regex α) :
    (star body).Matches (c :: text) ↔
      ∃ before after, text = before ++ after ∧ body.Matches (c :: before) ∧
        (star body).Matches after := by
  constructor
  · rintro ⟨parts, same, all⟩
    induction parts with
    | nil => cases same
    | cons part rest ih =>
      cases part with
      | nil => exact ih same fun part member => all part (by simp [member])
      | cons first part =>
        obtain ⟨rfl, rfl⟩ := List.cons.inj same
        exact ⟨part, rest.flatten, rfl, all _ (by simp), rest, rfl,
          fun part member => all part (by simp [member])⟩
  · rintro ⟨before, after, rfl, first, parts, rfl, all⟩
    refine ⟨(c :: before) :: parts, rfl, ?_⟩
    intro part member
    rcases List.mem_cons.mp member with rfl | later
    · exact first
    · exact all part later

theorem derive_matches (regex : Regex α) (c : α) (text : List α) :
    (regex.derive c).Matches text ↔ regex.Matches (c :: text) := by
  induction regex generalizing text with
  | never => simp [derive, Matches]
  | blank => simp [derive, Matches]
  | char accepts =>
    unfold derive
    split <;> rename_i accepted
    · simp [Matches, accepted]
    · simp [Matches, accepted]
  | either left right left_ih right_ih =>
    rw [derive, choose_matches, left_ih, right_ih]
    rfl
  | chain first second first_ih second_ih =>
    have split : (first.chain second).Matches (c :: text) ↔
        (first.derive c |>.chain second).Matches text ∨
          (first.nullable = true ∧ second.Matches (c :: text)) := by
      rw [nullable_iff]
      constructor
      · rintro ⟨before, after, same, matched, rest⟩
        cases before with
        | nil =>
          obtain rfl : c :: text = after := same
          exact .inr ⟨matched, rest⟩
        | cons head before =>
          obtain ⟨rfl, rfl⟩ := List.cons.inj same
          exact .inl ⟨before, after, rfl, (first_ih _).mpr matched, rest⟩
      · rintro (⟨before, after, rfl, matched, rest⟩ | ⟨matched, rest⟩)
        · exact ⟨c :: before, after, rfl, (first_ih _).mp matched, rest⟩
        · exact ⟨[], c :: text, rfl, matched, rest⟩
    rw [split, derive]
    split_ifs with null
    · simp only [choose_matches, follow_matches, second_ih, null, true_and]
    · simp [follow_matches, null]
  | star body body_ih =>
    rw [derive, follow_matches, star_matches_cons]
    constructor
    · rintro ⟨before, after, rfl, matched, rest⟩
      exact ⟨before, after, rfl, (body_ih _).mp matched, rest⟩
    · rintro ⟨before, after, rfl, matched, rest⟩
      exact ⟨before, after, rfl, (body_ih _).mpr matched, rest⟩

def optional (regex : Regex α) : Regex α := either blank regex

def plus (regex : Regex α) : Regex α := chain regex (star regex)

/-- A fixed text in front of what another expression matches -/
def literal [BEq α] : List α → Regex α → Regex α
  | [], rest => rest
  | c :: text, rest => chain (char (· == c)) (literal text rest)

theorem literal_matches [BEq α] [LawfulBEq α] (before : List α) (rest : Regex α) (text : List α) :
    (literal before rest).Matches text ↔ ∃ after, text = before ++ after ∧ rest.Matches after := by
  induction before generalizing text with
  | nil => simp [literal]
  | cons c before ih =>
    simp only [literal, Matches, ih]
    constructor
    · rintro ⟨_, _, rfl, ⟨d, same, rfl⟩, after, rfl, matched⟩
      obtain rfl : d = c := by simpa using same
      exact ⟨after, rfl, matched⟩
    · rintro ⟨after, rfl, matched⟩
      exact ⟨[c], before ++ after, rfl, ⟨c, by simp, rfl⟩, after, rfl, matched⟩

theorem optional_matches [BEq α] [LawfulBEq α] (before text : List α) :
    (optional (literal before blank)).Matches text ↔ text = [] ∨ text = before := by
  simp [optional, Matches, literal_matches]

/-- The length of the longest prefix that matches -/
def longest (regex : Regex α) : List α → Option Nat
  | [] => if regex.nullable then some 0 else none
  | c :: text =>
    match if (regex.derive c).isNever then none else longest (regex.derive c) text with
    | some n => some (n + 1)
    | none => if regex.nullable then some 0 else none

theorem isNever_iff (regex : Regex α) : regex.isNever = true ↔ regex = never := by
  cases regex <;> simp [isNever]

theorem longest_never (text : List α) : longest never text = none := by
  cases text <;> rfl

theorem longest_cons (regex : Regex α) (c : α) (text : List α) :
    regex.longest (c :: text) =
      (((regex.derive c).longest text).map (· + 1)).or (if regex.nullable then some 0 else none) := by
  have skipped : (if (regex.derive c).isNever then none else (regex.derive c).longest text) =
      (regex.derive c).longest text := by
    split_ifs with dead
    · rw [(isNever_iff _).mp dead, longest_never]
    · rfl
  rw [longest, skipped]
  cases (regex.derive c).longest text <;> simp

theorem longest_isSome (regex : Regex α) (text : List α) (null : regex.nullable = true) :
    (regex.longest text).isSome = true := by
  cases text with
  | nil => simp [longest, null]
  | cons c text => simp [longest_cons, null]

theorem longest_step (regex : Regex α) (c : α) (text : List α)
    (null : regex.nullable = true → (regex.derive c).nullable = true) :
    regex.longest (c :: text) = ((regex.derive c).longest text).map (· + 1) := by
  rw [longest_cons]
  cases found : (regex.derive c).longest text with
  | some n => rfl
  | none =>
    have not_null : ¬regex.nullable = true := by
      intro is
      have := longest_isSome _ text (null is)
      rw [found] at this
      cases this
    simp [not_null]

/-- Characters that leave the expression as it is -/
theorem longest_loop (regex : Regex α) (before after : List α)
    (same : ∀ c ∈ before, regex.derive c = regex) :
    regex.longest (before ++ after) = (regex.longest after).map (· + before.length) := by
  induction before with
  | nil => simp
  | cons c before ih =>
    obtain ⟨first, later⟩ := List.forall_mem_cons.mp same
    rw [List.cons_append, longest_step regex c _ (by simp [first]), first, ih later, Option.map_map]
    rfl

theorem longest_of_derive (regex : Regex α) (null : regex.nullable = false) (c : α) (text : List α) :
    regex.longest (c :: text) = ((regex.derive c).longest text).map (· + 1) :=
  longest_step regex c text (by simp [null])

theorem longest_eq_none {regex : Regex α} (null : regex.nullable = false)
    (dead : regex.derive c = never) (text : List α) : regex.longest (c :: text) = none := by
  rw [longest_of_derive regex null, dead, longest_never, Option.map_none]

theorem longest_eq_zero {regex : Regex α} (null : regex.nullable = true)
    (dead : ∀ c ∈ text.head?, regex.derive c = never) : regex.longest text = some 0 := by
  cases text with
  | nil => simp [longest, null]
  | cons c text => simp [longest_cons, dead c rfl, longest_never, null]

theorem longest_blank (text : List α) : blank.longest text = some 0 :=
  longest_eq_zero rfl fun _ _ => rfl

theorem longest_char (accepts : α → Bool) (accepted : accepts c = true) (text : List α) :
    (char accepts).longest (c :: text) = some 1 := by
  rw [longest_of_derive _ rfl, derive, if_pos accepted, longest_blank]
  rfl

theorem longest_congr {left right : Regex α} (null : left.nullable = right.nullable)
    (same : ∀ c ∈ text.head?, left.derive c = right.derive c) :
    left.longest text = right.longest text := by
  cases text with
  | nil => simp only [longest, null]
  | cons c text => simp only [longest_cons, null, same c rfl]

/-- What a regular expression finds at the start of a text. -/
structure Finds (regex : Regex α) (text : List α) (n : Nat) : Prop where
  matched : ∃ before after, text = before ++ after ∧ before.length = n ∧ regex.Matches before
  maximal : ∀ before after, text = before ++ after → regex.Matches before → before.length ≤ n

theorem Finds.unique (first : Finds regex text n) (second : Finds regex text m) : n = m := by
  obtain ⟨before, after, same, rfl, matched⟩ := first.matched
  obtain ⟨before', after', same', rfl, matched'⟩ := second.matched
  exact Nat.le_antisymm (second.maximal _ _ same matched) (first.maximal _ _ same' matched')

theorem longest_spec (regex : Regex α) (text : List α) :
    (∀ n, regex.longest text = some n → Finds regex text n) ∧
      (regex.longest text = none → ∀ before after, text = before ++ after →
        ¬regex.Matches before) := by
  induction text generalizing regex with
  | nil =>
    have null := regex.nullable_iff
    constructor
    · intro n found
      unfold longest at found
      split_ifs at found with empty
      obtain rfl := Option.some.inj found
      refine ⟨⟨[], [], rfl, rfl, null.mp empty⟩, ?_⟩
      intro before after same _
      simp [(List.nil_eq_append_iff.mp same).1]
    · intro found before after same matched
      rw [(List.nil_eq_append_iff.mp same).1] at matched
      simp [longest, null.mpr matched] at found
  | cons c text ih =>
    obtain ⟨found, missing⟩ := ih (regex.derive c)
    have null := regex.nullable_iff
    rw [longest_cons]
    cases result : (regex.derive c).longest text with
    | some m =>
      refine ⟨?_, by simp⟩
      rintro n same
      obtain rfl : m + 1 = n := by simpa using same
      obtain ⟨⟨before, after, rfl, rfl, matched⟩, maximal⟩ := found m result
      refine ⟨⟨c :: before, after, rfl, rfl, (derive_matches ..).mp matched⟩, ?_⟩
      intro before' after' same' matched'
      cases before' with
      | nil => simp
      | cons head before' =>
        obtain ⟨rfl, rest⟩ := List.cons.inj same'
        have := maximal before' after' rest ((derive_matches ..).mpr matched')
        simp only [List.length_cons]
        omega
    | none =>
      have shorter : ∀ before after, c :: text = before ++ after → regex.Matches before →
          before = [] := by
        intro before after same matched
        cases before with
        | nil => rfl
        | cons head before =>
          obtain ⟨rfl, rest⟩ := List.cons.inj same
          exact absurd ((derive_matches ..).mpr matched) (missing result before after rest)
      constructor
      · intro n same
        simp only [Option.map_none, Option.none_or] at same
        split_ifs at same with empty
        obtain rfl := Option.some.inj same
        refine ⟨⟨[], c :: text, rfl, rfl, null.mp empty⟩, ?_⟩
        intro before after same matched
        simp [shorter before after same matched]
      · intro same before after split matched
        obtain rfl := shorter before after split matched
        simp [null.mpr matched] at same

theorem longest_eq_some_iff (regex : Regex α) (text : List α) (n : Nat) :
    regex.longest text = some n ↔ Finds regex text n := by
  constructor
  · exact (longest_spec regex text).1 n
  · intro finds
    cases found : regex.longest text with
    | some m => rw [((longest_spec regex text).1 m found).unique finds]
    | none =>
      obtain ⟨before, after, same, _, matched⟩ := finds.matched
      exact absurd matched ((longest_spec regex text).2 found before after same)

theorem longest_eq_none_iff (regex : Regex α) (text : List α) :
    regex.longest text = none ↔ ∀ before after, text = before ++ after → ¬regex.Matches before := by
  refine ⟨(longest_spec regex text).2, ?_⟩
  intro missing
  cases found : regex.longest text with
  | none => rfl
  | some n =>
    obtain ⟨before, after, same, _, matched⟩ := ((longest_spec regex text).1 n found).matched
    exact absurd matched (missing before after same)

theorem le_longest (regex : Regex α) (matched : regex.Matches before) (after : List α) :
    ∃ n, regex.longest (before ++ after) = some n ∧ before.length ≤ n := by
  cases found : regex.longest (before ++ after) with
  | none => exact absurd matched ((longest_eq_none_iff ..).mp found before after rfl)
  | some n => exact ⟨n, rfl, ((longest_eq_some_iff ..).mp found).maximal before after rfl matched⟩

theorem longest_take (regex : Regex α) (found : regex.longest text = some n) :
    regex.Matches (text.take n) ∧ (text.take n).length = n := by
  obtain ⟨before, after, rfl, rfl, matched⟩ := ((longest_eq_some_iff ..).mp found).matched
  rw [List.take_left]
  exact ⟨matched, rfl⟩

theorem longest_char_le (accepts : α → Bool) (found : (char accepts).longest text = some n) : n ≤ 1 := by
  obtain ⟨_, size⟩ : ∃ c, text.take n = [c] := by
    obtain ⟨before, after, rfl, rfl, c, _, rfl⟩ := ((longest_eq_some_iff ..).mp found).matched
    exact ⟨c, by simp⟩
  have length := (longest_take _ found).2
  rw [size] at length
  exact Nat.le_of_eq length.symm

/-- Nothing that starts with the text matches. -/
def settled : Regex α → List α → Bool
  | regex, [] => regex.isNever
  | regex, c :: text => regex.isNever || settled (regex.derive c) text

/-- The longest match does not look behind a text that settles it. -/
theorem longest_append (before after : List α) (regex : Regex α)
    (known : regex.settled before = true) :
    regex.longest (before ++ after) = regex.longest before := by
  induction before generalizing regex with
  | nil => rw [(isNever_iff regex).mp known, longest_never, longest_never]
  | cons c before ih =>
    rcases Bool.or_eq_true_iff.mp known with dead | later
    · rw [(isNever_iff regex).mp dead, longest_never, longest_never]
    · rw [List.cons_append, longest_cons, longest_cons, ih _ later]

/-- No shorter text matches. -/
def shortest : Regex α → Nat
  | never | blank | star _ => 0
  | char _ => 1
  | either left right => min left.shortest right.shortest
  | chain first second => first.shortest + second.shortest

theorem shortest_le (regex : Regex α) (matched : regex.Matches text) :
    regex.shortest ≤ text.length := by
  induction regex generalizing text with
  | never => exact absurd matched id
  | blank => exact Nat.zero_le _
  | char accepts =>
    obtain ⟨c, _, rfl⟩ := matched
    exact Nat.le_refl 1
  | either left right left_ih right_ih =>
    rcases matched with first | second
    · exact Nat.le_trans (Nat.min_le_left ..) (left_ih first)
    · exact Nat.le_trans (Nat.min_le_right ..) (right_ih second)
  | chain first second first_ih second_ih =>
    obtain ⟨before, after, rfl, start, rest⟩ := matched
    simpa [shortest] using Nat.add_le_add (first_ih start) (second_ih rest)
  | star body _ => exact Nat.zero_le _

end Regex
