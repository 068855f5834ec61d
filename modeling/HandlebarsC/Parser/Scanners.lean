import HandlebarsC.Core.Text
import HandlebarsC.Foundation.Utf8

/-!
The two scanners of `handlebars_scanners.c` that tell whether a text starts or ends with a
blank line, and the text that they read right.
-/

namespace HandlebarsC.Scanner

open Utf8

/-- The rules of the scanners. -/
inductive Rule where
  | terminator
  | blank
  | newline
  | other
  deriving DecidableEq, Repr

/-- Where the automaton reads its next byte: at the start of the block, or at a label of
`handlebars_scanner_next_whitespace`. `handlebars_scanner_prev_whitespace` has the same labels
from `yy28` on. -/
inductive State where
  | start
  | yy11
  | yy12
  | yy13
  | yy14
  | yy15
  | yy16
  deriving DecidableEq, Repr

inductive Target where
  | rule (rule : Rule)
  | goto (state : State)
  deriving DecidableEq, Repr

/-- Where a byte leads. `yy2` is `yy3`, the rule for the terminator. -/
def State.target : State → UInt8 → Target
  | .start, yych =>
    if yych ≤ 32 then
      if yych ≤ 10 then
        if yych ≤ 0x00 then .rule .terminator
        else if yych ≤ 0x08 then .rule .other
        else if yych ≤ 9 then .rule .blank
        else .rule .newline
      else if yych ≤ 12 then
        if yych ≤ 11 then .rule .blank
        else .rule .other
      else if yych ≤ 13 then .rule .blank
      else if yych ≤ 0x1F then .rule .other
      else .rule .blank
    else if yych ≤ 0xE0 then
      if yych ≤ 0x7F then .rule .other
      else if yych ≤ 0xC1 then .rule .terminator
      else if yych ≤ 0xDF then .goto .yy11
      else .goto .yy12
    else if yych ≤ 0xF0 then
      if yych ≤ 0xEF then .goto .yy13
      else .goto .yy14
    else if yych ≤ 0xF3 then .goto .yy15
    else if yych ≤ 0xF4 then .goto .yy16
    else .rule .terminator
  | .yy11, yych =>
    if yych ≤ 0x7F then .rule .terminator
    else if yych ≤ 0xBF then .rule .other
    else .rule .terminator
  | .yy12, yych =>
    if yych ≤ 0x9F then .rule .terminator
    else if yych ≤ 0xBF then .goto .yy11
    else .rule .terminator
  | .yy13, yych =>
    if yych ≤ 0x7F then .rule .terminator
    else if yych ≤ 0xBF then .goto .yy11
    else .rule .terminator
  | .yy14, yych =>
    if yych ≤ 0x8F then .rule .terminator
    else if yych ≤ 0xBF then .goto .yy13
    else .rule .terminator
  | .yy15, yych =>
    if yych ≤ 0x7F then .rule .terminator
    else if yych ≤ 0xBF then .goto .yy13
    else .rule .terminator
  | .yy16, yych =>
    if yych ≤ 0x7F then .rule .terminator
    else if yych ≤ 0x8F then .goto .yy13
    else .rule .terminator

/-- What the code of a rule does: it leaves the scanner, or goes on with a value of `match`. -/
inductive Act where
  | stop (answer : Bool)
  | go (found : Bool)

/-- The loop of a scanner, with its answer and the memory that it has not read. There is no
result where it reads behind the memory. -/
def scan (act : Bool → Rule → Act) : State → Bool → Str → Option (Bool × Str)
  | _, _, [] => none
  | state, found, yych :: rest =>
    match state.target yych with
    | .goto next => scan act next found rest
    | .rule rule =>
      match act found rule with
      | .stop answer => some (answer, rest)
      | .go found => scan act .start found rest

def nextAct (found : Bool) : Rule → Act
  | .terminator => .stop found
  | .blank => .go found
  | .newline => .stop true
  | .other => .stop false

def prevAct (found : Bool) : Rule → Act
  | .terminator => .stop found
  | .blank => .go found
  | .newline => .go true
  | .other => .go false

/-- `handlebars_scanner_next_whitespace`, in the memory from `s` on -/
def nextWhitespace (s : Str) (fallback : Bool) : Option (Bool × Str) :=
  scan nextAct .start fallback s

/-- `handlebars_scanner_prev_whitespace`, in the memory from `s` on -/
def prevWhitespace (s : Str) (fallback : Bool) : Option (Bool × Str) :=
  scan prevAct .start fallback s

/-! ### What the scanners are for -/

/-- `[ \v\t\r]` -/
def isBlank (char : UInt8) : Bool := char = 32 || char = 11 || char = 9 || char = 13

/-- Whether the first character that is not blank is a newline. -/
def firstVisible (fallback : Bool) (text : Str) : Bool :=
  match text.dropWhile isBlank with
  | [] => fallback
  | char :: _ => char = 10

/-- A text starts with a blank line. -/
def nextAnswer (fallback : Bool) (text : Str) : Bool := firstVisible fallback text

/-- A text ends with a blank line, which is seen from its end. -/
def prevAnswer (fallback : Bool) (text : Str) : Bool := firstVisible fallback text.reverse

/-- A scanner reads a text and its terminator, gives the answer, and has read enough: no other
text of which it would have read the same has another answer. -/
def Answers (scanner : Str → Option (Bool × Str)) (answer : Str → Bool) (text : Str) : Prop :=
  ∃ seen unread, text ++ [0] = seen ++ unread ∧ scanner (text ++ [0]) = some (answer text, unread) ∧
    ∀ other, 0 ∉ other → seen <+: other ++ [0] → answer other = answer text

/-! ### One run of the block -/

/-- The block of both scanners: the rule that it ends in, and the memory behind. -/
def block : State → Str → Option (Rule × Str)
  | _, [] => none
  | state, yych :: rest =>
    match state.target yych with
    | .goto next => block next rest
    | .rule rule => some (rule, rest)

/-- A scanner is a loop around the block. -/
theorem scan_block (act : Bool → Rule → Act) (state : State) (found : Bool) (memory : Str) :
    scan act state found memory = (block state memory).bind fun (rule, rest) =>
      match act found rule with
      | .stop answer => some (answer, rest)
      | .go found => scan act .start found rest := by
  induction memory generalizing state with
  | nil => rfl
  | cons yych rest ih =>
    rw [scan, block]
    cases state.target yych with
    | goto next => exact ih next
    | rule rule => rfl

/-- What lies behind a block is not read. -/
theorem block_append (ran : block state front = some (rule, left)) (more : Str) :
    block state (front ++ more) = some (rule, left ++ more) := by
  induction front generalizing state with
  | nil => cases ran
  | cons yych front ih =>
    rw [List.cons_append]
    unfold block at ran ⊢
    cases target : state.target yych with
    | goto next =>
      rw [target] at ran
      exact ih ran
    | rule rule =>
      rw [target] at ran
      cases ran
      rfl

/-- A block is what it has read and what it has not. -/
theorem block_split (ran : block state memory = some (rule, left)) :
    ∃ front, memory = front ++ left ∧ block state front = some (rule, []) := by
  induction memory generalizing state with
  | nil => cases ran
  | cons yych memory ih =>
    unfold block at ran
    cases target : state.target yych with
    | goto next =>
      rw [target] at ran
      obtain ⟨front, rfl, ended⟩ := ih ran
      refine ⟨yych :: front, rfl, ?_⟩
      unfold block
      rw [target]
      exact ended
    | rule rule =>
      rw [target] at ran
      cases ran
      refine ⟨[yych], rfl, ?_⟩
      unfold block
      rw [target]

/-- A text that does not fill a block leads to a state. -/
theorem block_pending (pending : block state text = none) :
    ∃ next, ∀ more, block state (text ++ more) = block next more := by
  induction text generalizing state with
  | nil => exact ⟨state, fun more => rfl⟩
  | cons yych text ih =>
    unfold block at pending
    cases target : state.target yych with
    | goto next =>
      rw [target] at pending
      obtain ⟨last, leads⟩ := ih pending
      refine ⟨last, fun more => ?_⟩
      rw [List.cons_append, block, target]
      exact leads more
    | rule rule =>
      rw [target] at pending
      cases pending

/-- Bytes that end a block from a state on. -/
def State.completion : State → Str
  | .start => [97]
  | .yy11 => [0x80]
  | .yy12 => [0xA0, 0x80]
  | .yy13 => [0x80, 0x80]
  | .yy14 => [0x90, 0x80, 0x80]
  | .yy15 => [0x80, 0x80, 0x80]
  | .yy16 => [0x80, 0x80, 0x80]

theorem State.block_completion (state : State) : block state state.completion = some (.other, []) := by
  cases state <;> decide

/-- Every state takes a zero for the end. -/
theorem State.target_zero (state : State) : state.target 0 = .rule .terminator := by
  cases state <;> rfl

/-- The rule for a character, or for the first byte of one. -/
def ruleOf (char : UInt8) : Rule :=
  if char = 0 then .terminator else if isBlank char then .blank
  else if char = 10 then .newline else .other

/-- Where the first bytes of longer sequences lead. -/
def leads : List (Nat × Nat × State) :=
  [(0xC2, 0xDF, .yy11), (0xE0, 0xE0, .yy12), (0xE1, 0xEF, .yy13), (0xF0, 0xF0, .yy14),
    (0xF1, 0xF3, .yy15), (0xF4, 0xF4, .yy16)]

/-- The bytes with which a sequence goes on in a state, and where they lead. -/
def State.follow : State → Nat × Nat × Target
  | .start => (0x00, 0x7F, .rule .other)
  | .yy11 => (0x80, 0xBF, .rule .other)
  | .yy12 => (0xA0, 0xBF, .goto .yy11)
  | .yy13 => (0x80, 0xBF, .goto .yy11)
  | .yy14 => (0x90, 0xBF, .goto .yy13)
  | .yy15 => (0x80, 0xBF, .goto .yy13)
  | .yy16 => (0x80, 0x8F, .goto .yy13)

/-- Where a byte leads at the start of the block: all that are neither characters nor start a
longer sequence end it like the terminator. -/
theorem target_start (yych : UInt8) :
    (Within 0x00 0x7F yych → State.start.target yych = .rule (ruleOf yych)) ∧
      (∀ lead ∈ leads, Within lead.1 lead.2.1 yych → State.start.target yych = .goto lead.2.2) ∧
      (Within 0x00 0x7F yych ∨ (∃ lead ∈ leads, Within lead.1 lead.2.1 yych) ∨
        State.start.target yych = .rule .terminator) := by
  revert yych
  exact forall_byte (by decide +kernel)

/-- Behind the start, the bytes that lead on lie between two bounds. -/
theorem target_range (least most : UInt8) (inner : Target) (yych : UInt8) :
    (if yych ≤ least then .rule .terminator else if yych ≤ most then inner
      else .rule .terminator) =
      if Within (least.toNat + 1) most.toNat yych then inner else .rule .terminator := by
  by_cases low : yych ≤ least
  · rw [if_pos low, if_neg fun within => Nat.not_lt_of_le low within.1]
  · by_cases high : yych ≤ most
    · rw [if_neg low, if_pos high, if_pos ⟨Nat.lt_of_not_le low, high⟩]
    · rw [if_neg low, if_neg high, if_neg fun within => high within.2]

theorem target_follow {state : State} (inside : state ≠ .start) (yych : UInt8) :
    state.target yych = if Within state.follow.1 state.follow.2.1 yych then state.follow.2.2
      else .rule .terminator := by
  cases state with
  | start => exact absurd rfl inside
  | yy11 | yy12 | yy13 | yy14 | yy15 | yy16 => exact target_range _ _ _ yych

/-- The rest of the block. -/
def Target.run : Target → Str → Option (Rule × Str)
  | .goto next, rest => block next rest
  | .rule taken, rest => some (taken, rest)

theorem block_cons (state : State) (yych : UInt8) (rest : Str) :
    block state (yych :: rest) = (state.target yych).run rest := by
  rw [block]
  cases state.target yych <;> rfl

/-- A state that is left for another rule than the terminator's was followed by one of its
bytes. -/
theorem block_follow (state : State) (inside : state ≠ .start)
    (ran : block state memory = some (rule, left)) (live : rule ≠ .terminator) :
    ∃ yych rest, memory = yych :: rest ∧ Within state.follow.1 state.follow.2.1 yych ∧
      state.follow.2.2.run rest = some (rule, left) := by
  cases memory with
  | nil => cases ran
  | cons yych rest =>
    rw [block_cons, target_follow inside] at ran
    by_cases within : Within state.follow.1 state.follow.2.1 yych
    · rw [if_pos within] at ran
      exact ⟨yych, rest, rfl, within, ran⟩
    · rw [if_neg within] at ran
      cases ran
      exact absurd rfl live

theorem follow_run (state : State) (inside : state ≠ .start)
    (within : Within state.follow.1 state.follow.2.1 yych) (rest : Str) :
    block state (yych :: rest) = state.follow.2.2.run rest := by
  rw [block_cons, target_follow inside, if_pos within]

theorem lead_run (lead : Nat × Nat × State) (member : lead ∈ leads)
    (within : Within lead.1 lead.2.1 yych) (rest : Str) :
    block .start (yych :: rest) = block lead.2.2 rest := by
  rw [block_cons, (target_start yych).2.1 lead member within]
  rfl

theorem high_visible (high : 0x80 ≤ char.toNat) : isBlank char = false ∧ char ≠ 10 := by
  have apart {low : UInt8} (small : low.toNat < 0x80) : char ≠ low := by
    rintro rfl
    omega
  exact ⟨by simp [isBlank, apart], apart (by decide)⟩

theorem ruleOf_high (high : 0x80 ≤ char.toNat) : ruleOf char = .other := by
  obtain ⟨visible, line⟩ := high_visible high
  have nonzero : char ≠ 0 := by
    rintro rfl
    exact absurd high (by decide)
  rw [ruleOf, if_neg nonzero, visible, if_neg Bool.false_ne_true, if_neg line]

/-- A sequence fills a block. -/
theorem block_sequence (sequence : Sequence (char :: rest)) :
    block .start (char :: rest) = some (ruleOf char, []) := by
  cases sequence with
  | one first =>
    rw [block_cons, (target_start _).1 first]
    rfl
  | two first second =>
    rw [ruleOf_high (Nat.le_trans (by decide) first.1)]
    refine (lead_run (0xC2, 0xDF, .yy11) (by decide) first _).trans ?_
    exact follow_run .yy11 nofun second _
  | three first second third =>
    rw [ruleOf_high (Nat.le_trans (by decide) first.1)]
    refine (lead_run (0xE1, 0xEF, .yy13) (by decide) first _).trans ?_
    refine (follow_run .yy13 nofun second _).trans ?_
    exact follow_run .yy11 nofun third _
  | lowThree first second third =>
    rw [ruleOf_high (Nat.le_trans (by decide) first.1)]
    refine (lead_run (0xE0, 0xE0, .yy12) (by decide) first _).trans ?_
    refine (follow_run .yy12 nofun second _).trans ?_
    exact follow_run .yy11 nofun third _
  | four first second third fourth =>
    rw [ruleOf_high (Nat.le_trans (by decide) first.1)]
    refine (lead_run (0xF1, 0xF3, .yy15) (by decide) first _).trans ?_
    refine (follow_run .yy15 nofun second _).trans ?_
    refine (follow_run .yy13 nofun third _).trans ?_
    exact follow_run .yy11 nofun fourth _
  | lowFour first second third fourth =>
    rw [ruleOf_high (Nat.le_trans (by decide) first.1)]
    refine (lead_run (0xF0, 0xF0, .yy14) (by decide) first _).trans ?_
    refine (follow_run .yy14 nofun second _).trans ?_
    refine (follow_run .yy13 nofun third _).trans ?_
    exact follow_run .yy11 nofun fourth _
  | highFour first second third fourth =>
    rw [ruleOf_high (Nat.le_trans (by decide) first.1)]
    refine (lead_run (0xF4, 0xF4, .yy16) (by decide) first _).trans ?_
    refine (follow_run .yy16 nofun second _).trans ?_
    refine (follow_run .yy13 nofun third _).trans ?_
    exact follow_run .yy11 nofun fourth _

theorem follow_yy11 (ran : block .yy11 memory = some (rule, left)) (live : rule ≠ .terminator) :
    ∃ last, memory = last :: left ∧ Within 0x80 0xBF last := by
  obtain ⟨last, rest, rfl, within, ended⟩ := block_follow .yy11 nofun ran live
  cases ended
  exact ⟨last, rfl, within⟩

theorem follow_yy13 (ran : block .yy13 memory = some (rule, left)) (live : rule ≠ .terminator) :
    ∃ third last, memory = third :: last :: left ∧ Within 0x80 0xBF third ∧
      Within 0x80 0xBF last := by
  obtain ⟨third, rest, rfl, within, ran⟩ := block_follow .yy13 nofun ran live
  obtain ⟨last, rfl, ended⟩ := follow_yy11 ran live
  exact ⟨third, last, rfl, within, ended⟩

/-- What ends a block, and not for the terminator's rule, is a sequence. -/
theorem sequence_of_block (ran : block .start taken = some (rule, [])) (live : rule ≠ .terminator) :
    Sequence taken := by
  cases taken with
  | nil => cases ran
  | cons first rest =>
    rcases (target_start first).2.2 with low | ⟨lead, member, within⟩ | stop
    · rw [block_cons, (target_start _).1 low] at ran
      cases ran
      exact .one low
    · rw [lead_run lead member within] at ran
      simp only [leads, List.mem_cons, List.not_mem_nil, or_false] at member
      rcases member with rfl | rfl | rfl | rfl | rfl | rfl
      · obtain ⟨second, rfl, last⟩ := follow_yy11 ran live
        exact .two within last
      · obtain ⟨second, rest, rfl, middle, ran⟩ := block_follow .yy12 nofun ran live
        obtain ⟨third, rfl, last⟩ := follow_yy11 ran live
        exact .lowThree within middle last
      · obtain ⟨second, third, rfl, middle, last⟩ := follow_yy13 ran live
        exact .three within middle last
      · obtain ⟨second, rest, rfl, middle, ran⟩ := block_follow .yy14 nofun ran live
        obtain ⟨third, fourth, rfl, later, last⟩ := follow_yy13 ran live
        exact .lowFour within middle later last
      · obtain ⟨second, rest, rfl, middle, ran⟩ := block_follow .yy15 nofun ran live
        obtain ⟨third, fourth, rfl, later, last⟩ := follow_yy13 ran live
        exact .four within middle later last
      · obtain ⟨second, rest, rfl, middle, ran⟩ := block_follow .yy16 nofun ran live
        obtain ⟨third, fourth, rfl, later, last⟩ := follow_yy13 ran live
        exact .highFour within middle later last
    · rw [block_cons, stop] at ran
      cases ran
      exact absurd rfl live

theorem block_encode (small : number < bound) :
    ∃ first rest, encode number = first :: rest ∧ Sequence (first :: rest) ∧
      block .start (encode number) = some (ruleOf first, []) := by
  obtain ⟨first, rest, written⟩ := List.exists_cons_of_ne_nil (encode_ne_nil number)
  have sequence := sequence_encode small
  rw [written] at sequence ⊢
  exact ⟨first, rest, rfl, sequence, block_sequence sequence⟩

theorem begins_of_block (ran : block .start text = some (rule, left)) (live : rule ≠ .terminator) :
    Begins text := by
  obtain ⟨front, rfl, ended⟩ := block_split ran
  obtain ⟨number, small, rfl⟩ := (sequence_iff front).mp (sequence_of_block ended live)
  exact ⟨number, small, List.prefix_append _ _⟩

/-- A sequence is cut off where the block would go on. -/
theorem cut_iff (text : Str) : Cut text ↔ text ≠ [] ∧ block .start text = none := by
  constructor
  · rintro ⟨some, number, small, ⟨rest, whole⟩, other⟩
    refine ⟨some, ?_⟩
    obtain ⟨first, tail, -, -, ran⟩ := block_encode small
    cases ended : block .start text with
    | none => rfl
    | some outcome =>
      obtain ⟨rule, left⟩ := outcome
      have further := block_append ended rest
      rw [whole, ran] at further
      have nothing : left ++ rest = [] := (Prod.mk.inj (Option.some.inj further)).2.symm
      rw [(List.append_eq_nil_iff.mp nothing).2, List.append_nil] at whole
      exact absurd whole other
  · rintro ⟨some, pending⟩
    obtain ⟨next, leads⟩ := block_pending pending
    have ended := (leads next.completion).trans next.block_completion
    obtain ⟨number, small, written⟩ := (sequence_iff _).mp (sequence_of_block ended nofun)
    refine ⟨some, number, small, ⟨next.completion, written.symm⟩, ?_⟩
    rw [written]
    intro same
    have empty := List.self_eq_append_right.mp same
    cases next <;> cases empty

/-! ### Blanks, newlines and other characters -/

theorem firstVisible_blank (blank : isBlank char = true) (fallback : Bool) (text : Str) :
    firstVisible fallback (char :: text) = firstVisible fallback text := by
  rw [firstVisible, List.dropWhile_cons_of_pos blank, firstVisible]

theorem firstVisible_visible (visible : isBlank char = false) (fallback : Bool) (text : Str) :
    firstVisible fallback (char :: text) = decide (char = 10) := by
  rw [firstVisible, List.dropWhile_cons_of_neg (Bool.eq_false_iff.mp visible)]

/-- Where the first text has no visible character, the second one answers. -/
theorem firstVisible_append (fallback : Bool) (front back : Str) :
    firstVisible fallback (front ++ back) = firstVisible (firstVisible fallback back) front := by
  induction front with
  | nil => rfl
  | cons char front ih =>
    rw [List.cons_append]
    cases visible : isBlank char with
    | true => rw [firstVisible_blank visible, firstVisible_blank visible, ih]
    | false => rw [firstVisible_visible visible, firstVisible_visible visible]

theorem firstVisible_iff (fallback : Bool) (text : Str) :
    firstVisible fallback text = true ↔
      (∃ blanks rest, text = blanks ++ 10 :: rest ∧ ∀ char ∈ blanks, isBlank char = true) ∨
        ((∀ char ∈ text, isBlank char = true) ∧ fallback = true) := by
  induction text with
  | nil => simp [firstVisible]
  | cons char text ih =>
    cases visible : isBlank char with
    | true =>
      rw [firstVisible_blank visible, ih, List.forall_mem_cons, and_iff_right visible]
      refine or_congr_left ⟨?_, ?_⟩
      · rintro ⟨blanks, rest, rfl, all⟩
        exact ⟨char :: blanks, rest, rfl, List.forall_mem_cons.mpr ⟨visible, all⟩⟩
      · rintro ⟨blanks, rest, same, all⟩
        cases blanks with
        | nil =>
          obtain ⟨rfl, -⟩ := List.cons.inj same
          cases visible
        | cons first blanks =>
          exact ⟨blanks, rest, (List.cons.inj same).2, (List.forall_mem_cons.mp all).2⟩
    | false =>
      rw [firstVisible_visible visible, decide_eq_true_iff]
      constructor
      · rintro rfl
        exact .inl ⟨[], text, rfl, nofun⟩
      · rintro (⟨blanks, rest, same, all⟩ | ⟨all, -⟩)
        · cases blanks with
          | nil => exact (List.cons.inj same).1
          | cons first blanks =>
            obtain ⟨rfl, -⟩ := List.cons.inj same
            rw [all char List.mem_cons_self] at visible
            cases visible
        · rw [all char List.mem_cons_self] at visible
          cases visible

/-- Seen from its end, a text has only blanks behind its last newline, or is blank. -/
theorem prevAnswer_iff (fallback : Bool) (text : Str) :
    prevAnswer fallback text = true ↔
      (∃ front blanks, text = front ++ 10 :: blanks ∧ ∀ char ∈ blanks, isBlank char = true) ∨
        ((∀ char ∈ text, isBlank char = true) ∧ fallback = true) := by
  unfold prevAnswer
  rw [firstVisible_iff]
  simp only [List.mem_reverse]
  refine or_congr_left ⟨?_, ?_⟩
  · rintro ⟨blanks, rest, same, all⟩
    refine ⟨rest.reverse, blanks.reverse, ?_, fun char member => all char (List.mem_reverse.mp member)⟩
    rw [← List.reverse_reverse text, same]
    simp
  · rintro ⟨front, blanks, rfl, all⟩
    exact ⟨blanks.reverse, front.reverse, by simp, fun char member => all char (List.mem_reverse.mp member)⟩

theorem prevAnswer_append (fallback : Bool) (front back : Str) :
    prevAnswer fallback (front ++ back) = prevAnswer (prevAnswer fallback front) back := by
  unfold prevAnswer
  rw [List.reverse_append, firstVisible_append]

/-- A text that ends in a byte of a longer sequence does not end in a blank line. -/
theorem prevAnswer_high (fallback : Bool) (some : text ≠ [])
    (high : ∀ byte ∈ text, 0x80 ≤ byte.toNat) : prevAnswer fallback text = false := by
  obtain ⟨last, rest, same⟩ :=
    List.exists_cons_of_ne_nil (mt List.reverse_eq_nil_iff.mp some)
  have member : last ∈ text := by
    rw [← List.mem_reverse, same]
    exact List.mem_cons_self
  obtain ⟨visible, other⟩ := high_visible (high last member)
  unfold prevAnswer
  rw [same, firstVisible_visible visible]
  exact decide_eq_false other

/-- The rule for a sequence does to `match` what the sequence does to the answer. -/
theorem prevAct_sequence (sequence : Sequence (first :: rest)) (nonzero : first ≠ 0)
    (found : Bool) : prevAct found (ruleOf first) = .go (prevAnswer found (first :: rest)) := by
  by_cases one : (first :: rest).length = 1
  · cases List.length_eq_zero_iff.mp (Nat.succ.inj one)
    unfold ruleOf prevAnswer
    rw [if_neg nonzero, List.reverse_singleton]
    cases visible : isBlank first with
    | true =>
      rw [firstVisible_blank visible]
      rfl
    | false =>
      rw [firstVisible_visible visible]
      by_cases newline : first = 10
      · rw [if_neg Bool.false_ne_true, if_pos newline, decide_eq_true newline]
        rfl
      · rw [if_neg Bool.false_ne_true, if_neg newline, decide_eq_false newline]
        rfl
  · have high := sequence.high one
    rw [ruleOf_high (high first List.mem_cons_self),
      prevAnswer_high found (List.cons_ne_nil _ _) high]
    rfl

/-! ### The scanners on a text -/

theorem scan_encode (act : Bool → Rule → Act) (small : number < bound) (found : Bool)
    (memory : Str) : ∃ first rest, encode number = first :: rest ∧ Sequence (first :: rest) ∧
      scan act .start found (encode number ++ memory) = match act found (ruleOf first) with
        | .stop answer => some (answer, memory)
        | .go found => scan act .start found memory := by
  obtain ⟨first, rest, written, sequence, ran⟩ := block_encode small
  refine ⟨first, rest, written, sequence, ?_⟩
  rw [scan_block, block_append ran memory]
  rfl

/-- The scanner that looks for the last newline goes through what is encoded. -/
theorem scan_prev_encoded (encoded : Encoded text) (plain : 0 ∉ text) (found : Bool)
    (memory : Str) : scan prevAct .start found (text ++ memory) =
      scan prevAct .start (prevAnswer found text) memory := by
  obtain ⟨numbers, all, rfl⟩ := encoded
  induction numbers generalizing found with
  | nil => rfl
  | cons number numbers ih =>
    obtain ⟨small, all⟩ := List.forall_mem_cons.mp all
    rw [List.flatMap_cons, List.mem_append, not_or] at plain
    obtain ⟨first, rest, written, sequence, ran⟩ :=
      scan_encode prevAct small found (numbers.flatMap encode ++ memory)
    have nonzero : first ≠ 0 := by
      rintro rfl
      rw [written] at plain
      exact plain.1 List.mem_cons_self
    rw [List.flatMap_cons, List.append_assoc, ran, prevAct_sequence sequence nonzero,
      prevAnswer_append, written]
    exact ih _ all plain.2

theorem block_terminator : block .start [0] = some (.terminator, []) := rfl

/-- A sequence that is cut off ends the scan with the terminator. -/
theorem block_cut (cut : Cut text) : block .start (text ++ [0]) = some (.terminator, []) := by
  obtain ⟨next, leads⟩ := block_pending ((cut_iff text).mp cut).2
  rw [leads, block_cons, next.target_zero]
  rfl

/-- Other bytes that start no sequence end it in front of the terminator. -/
theorem block_malformed (some : text ≠ []) (malformed : ¬Begins text) (whole : ¬Cut text) :
    ∃ left, block .start (text ++ [0]) = .some (.terminator, left ++ [0]) := by
  cases ended : block .start text with
  | none => exact absurd ((cut_iff text).mpr ⟨some, ended⟩) whole
  | some outcome =>
    obtain ⟨rule, left⟩ := outcome
    have stops : rule = .terminator := by
      by_contra live
      exact malformed (begins_of_block ended live)
    rw [stops] at ended
    exact ⟨left, block_append ended [0]⟩

/-- Where no sequence starts, the block ends like at the terminator. -/
theorem block_stops (some : text ≠ []) (malformed : ¬Begins text) :
    ∃ left, block .start (text ++ [0]) = .some (.terminator, left) := by
  by_cases cut : Cut text
  · exact ⟨[], block_cut cut⟩
  · obtain ⟨left, ran⟩ := block_malformed some malformed cut
    exact ⟨_, ran⟩

/-- What `handlebars_scanner_prev_whitespace` returns depends on where the text goes wrong. -/
theorem prevWhitespace_eq (encoded : Encoded front) (plain : 0 ∉ front) (fallback : Bool)
    (ran : block .start (rest ++ [0]) = some (.terminator, left)) :
    prevWhitespace (front ++ rest ++ [0]) fallback = some (prevAnswer fallback front, left) := by
  unfold prevWhitespace
  rw [List.append_assoc, scan_prev_encoded encoded plain, scan_block, ran]
  rfl

/-- Bytes that start no sequence do not end in a blank line. -/
theorem prevAnswer_cut (cut : Cut text) (fallback : Bool) : prevAnswer fallback text = false := by
  obtain ⟨some, number, small, front, other⟩ := cut
  have shorter : text.length < (encode number).length := by
    apply Nat.lt_of_le_of_ne front.length_le
    intro same
    exact other (front.eq_of_length same)
  have positive := List.length_pos_of_ne_nil some
  have high := (sequence_encode small).high (by omega)
  exact prevAnswer_high fallback some fun byte member => high byte (front.subset member)

/-- What is read up to its terminator is known. -/
theorem eq_of_terminated {other : Str} (plain : 0 ∉ other) (same : text ++ [0] <+: other ++ [0]) :
    other = text := by
  obtain ⟨more, same⟩ := same
  rw [List.append_assoc] at same
  rcases List.append_eq_append_iff.mp same with ⟨between, rfl, rest⟩ | ⟨between, rfl, rest⟩
  · cases between with
    | nil => exact List.append_nil _
    | cons char between =>
      obtain ⟨rfl, -⟩ := List.cons.inj rest
      simp at plain
  · cases between with
    | nil => exact (List.append_nil _).symm
    | cons char between => simp at rest

/-- A text that was not read to its end may go on in two ways. -/
theorem not_decided (plain : 0 ∉ seen)
    (decided : ∀ other, 0 ∉ other → seen <+: other ++ [0] → prevAnswer fallback other = answer) :
    False := by
  have ends (char : UInt8) (nonzero : char ≠ 0) (visible : isBlank char = false) :
      decide (char = 10) = answer := by
    have here := decided (seen ++ [char]) (by simp [plain, Ne.symm nonzero]) ⟨[char, 0], by simp⟩
    rw [prevAnswer_append] at here
    exact (firstVisible_visible visible _ []).symm.trans here
  have newline := ends 10 (by decide) rfl
  have letter := ends 97 (by decide) rfl
  rw [← letter] at newline
  cases newline

theorem prev_iff (text : Str) (fallback : Bool) (plain : 0 ∉ text) :
    Answers (fun s => prevWhitespace s fallback) (prevAnswer fallback) text ↔
      Encoded text ∨ ∃ front cut, text = front ++ cut ∧ Encoded front ∧ Cut cut ∧
        prevAnswer fallback front = false := by
  constructor
  · rintro ⟨seen, unread, split, ran, decided⟩
    obtain ⟨front, rest, rfl, encoded, ends⟩ := exists_encoded_front text
    have apart : 0 ∉ front := fun zero => plain (List.mem_append_left _ zero)
    rcases eq_or_ne rest [] with rfl | some
    · exact .inl (by rwa [List.append_nil])
    by_cases cut : Cut rest
    · right
      refine ⟨front, rest, rfl, encoded, cut, ?_⟩
      have answer := ran.symm.trans (prevWhitespace_eq encoded apart fallback (block_cut cut))
      have same := (Prod.mk.inj (Option.some.inj answer)).1
      rw [prevAnswer_append, prevAnswer_cut cut] at same
      exact same.symm
    · obtain ⟨left, stops⟩ := block_malformed some (ends.resolve_left some) cut
      have answer := ran.symm.trans (prevWhitespace_eq encoded apart fallback stops)
      rw [(Prod.mk.inj (Option.some.inj answer)).2, ← List.append_assoc] at split
      have whole := List.append_cancel_right split
      have nothing : 0 ∉ seen := by
        intro zero
        rw [whole] at plain
        exact plain (List.mem_append_left _ zero)
      exact (not_decided nothing decided).elim
  · have reads {answer : Bool} (right : answer = prevAnswer fallback text)
        (ran : prevWhitespace (text ++ [0]) fallback = some (answer, [])) :
        Answers (fun s => prevWhitespace s fallback) (prevAnswer fallback) text := by
      refine ⟨text ++ [0], [], (List.append_nil _).symm, right ▸ ran, ?_⟩
      intro other plain same
      rw [eq_of_terminated plain same]
    rintro (encoded | ⟨front, cut, rfl, encoded, isCut, visible⟩)
    · have ran : prevWhitespace (text ++ [] ++ [0]) fallback = some (prevAnswer fallback text, []) :=
        prevWhitespace_eq encoded plain fallback block_terminator
      rw [List.append_nil] at ran
      exact reads rfl ran
    · have apart : 0 ∉ front := fun zero => plain (List.mem_append_left _ zero)
      refine reads ?_ (prevWhitespace_eq encoded apart fallback (block_cut isCut))
      rw [prevAnswer_append, prevAnswer_cut isCut, visible]

theorem exists_of_terminated {other : Str} (nonzero : char ≠ 0)
    (same : front ++ char :: rest = other ++ [0]) : ∃ later, other = front ++ char :: later := by
  rcases List.append_eq_append_iff.mp same.symm with ⟨between, -, last⟩ | ⟨between, whole, rest⟩
  · cases between with
    | nil => exact absurd (List.cons.inj last).1.symm nonzero
    | cons first between => simp at last
  · cases between with
    | nil => exact absurd (List.cons.inj rest).1 nonzero
    | cons first between =>
      obtain ⟨rfl, -⟩ := List.cons.inj rest
      exact ⟨between, whole⟩

theorem target_blank (blank : isBlank char = true) : State.start.target char = .rule .blank := by
  simp only [isBlank, Bool.or_eq_true, decide_eq_true_eq] at blank
  obtain ((rfl | rfl) | rfl) | rfl := blank <;> rfl

theorem scan_next_blanks (blanks : ∀ char ∈ front, isBlank char = true) (found : Bool)
    (memory : Str) :
    scan nextAct .start found (front ++ memory) = scan nextAct .start found memory := by
  induction front with
  | nil => rfl
  | cons char front ih =>
    obtain ⟨blank, blanks⟩ := List.forall_mem_cons.mp blanks
    rw [List.cons_append, scan, target_blank blank]
    exact ih blanks

theorem nextAnswer_blanks (blanks : ∀ char ∈ front, isBlank char = true) (fallback : Bool)
    (text : Str) : nextAnswer fallback (front ++ text) = nextAnswer fallback text := by
  unfold nextAnswer
  induction front with
  | nil => rfl
  | cons char front ih =>
    obtain ⟨blank, blanks⟩ := List.forall_mem_cons.mp blanks
    rw [List.cons_append, firstVisible_blank blank, ih blanks]

/-- Behind the blanks the first byte decides, and the scanner has read it. -/
theorem next_answers (blanks : ∀ char ∈ front, isBlank char = true)
    (visible : isBlank char = false) (nonzero : char ≠ 0)
    (ran : block .start (char :: rest ++ [0]) = some (rule, left))
    (stops : nextAct fallback rule = .stop answer) :
    Answers (fun s => nextWhitespace s fallback) (nextAnswer fallback) (front ++ char :: rest) ↔
      answer = decide (char = 10) := by
  have right : nextAnswer fallback (front ++ char :: rest) = decide (char = 10) :=
    (nextAnswer_blanks blanks fallback _).trans (firstVisible_visible visible fallback rest)
  have scanned : nextWhitespace (front ++ char :: rest ++ [0]) fallback = some (answer, left) := by
    unfold nextWhitespace
    rw [List.append_assoc, scan_next_blanks blanks, scan_block, ran, Option.bind_some]
    dsimp only
    rw [stops]
  constructor
  · rintro ⟨seen, unread, split, ran, decided⟩
    have same := scanned.symm.trans ran
    rw [right] at same
    exact (Prod.mk.inj (Option.some.inj same)).1
  · intro same
    obtain ⟨taken, whole, ended⟩ := block_split ran
    cases taken with
    | nil => cases ended
    | cons first taken =>
      rw [List.cons_append, List.cons_append] at whole
      obtain ⟨rfl, whole⟩ := List.cons.inj whole
      refine ⟨front ++ char :: taken, left, ?_, by rw [right, ← same]; exact scanned, ?_⟩
      · rw [List.append_assoc, List.append_assoc, List.cons_append, whole, List.cons_append]
      · intro other plain begins
        obtain ⟨more, whole⟩ := begins
        rw [List.append_assoc, List.cons_append] at whole
        obtain ⟨later, rfl⟩ := exists_of_terminated nonzero whole
        rw [right, nextAnswer_blanks blanks]
        exact firstVisible_visible visible fallback later

/-- The rule for a visible character leaves with the answer. -/
theorem nextAct_ruleOf (visible : isBlank char = false) (nonzero : char ≠ 0) :
    nextAct fallback (ruleOf char) = .stop (decide (char = 10)) := by
  unfold ruleOf
  rw [if_neg nonzero, visible, if_neg Bool.false_ne_true]
  by_cases newline : char = 10
  · rw [if_pos newline, decide_eq_true newline]
    rfl
  · rw [if_neg newline, decide_eq_false newline]
    rfl

theorem next_iff (text : Str) (fallback : Bool) (plain : 0 ∉ text) :
    Answers (fun s => nextWhitespace s fallback) (nextAnswer fallback) text ↔
      fallback = false ∨ text.dropWhile isBlank = [] ∨ Begins (text.dropWhile isBlank) := by
  have blanks : ∀ char ∈ text.takeWhile isBlank, isBlank char = true :=
    List.all_eq_true.mp List.all_takeWhile
  have split := List.takeWhile_append_dropWhile (p := isBlank) (l := text)
  generalize text.takeWhile isBlank = front at blanks split
  cases back : text.dropWhile isBlank with
  | nil =>
    rw [back, List.append_nil] at split
    subst split
    refine iff_of_true ⟨front ++ [0], [], (List.append_nil _).symm, ?_, ?_⟩ (.inr (.inl rfl))
    · have right := nextAnswer_blanks blanks fallback []
      rw [List.append_nil] at right
      rw [right]
      exact (scan_next_blanks blanks fallback [0]).trans rfl
    · intro other plain same
      rw [eq_of_terminated plain same]
  | cons char rest =>
    rw [back] at split
    have visible : isBlank char = false := by
      have stops := List.head?_dropWhile_not isBlank text
      rw [back] at stops
      simpa using stops
    subst split
    have nonzero : char ≠ 0 := by
      rintro rfl
      simp at plain
    by_cases begins : Begins (char :: rest)
    · refine iff_of_true ?_ (.inr (.inr begins))
      obtain ⟨number, small, later, whole⟩ := begins
      obtain ⟨first, tail, written, -, ran⟩ := block_encode small
      have ran := block_append ran (later ++ [0])
      rw [← List.append_assoc, whole] at ran
      rw [written] at whole
      obtain ⟨rfl, -⟩ := List.cons.inj whole
      exact (next_answers blanks visible nonzero ran (nextAct_ruleOf visible nonzero)).mpr rfl
    · have other : char ≠ 10 := by
        rintro rfl
        exact begins ⟨10, by decide, ⟨rest, rfl⟩⟩
      obtain ⟨left, ran⟩ := block_stops (List.cons_ne_nil char rest) begins
      rw [next_answers blanks visible nonzero ran rfl, decide_eq_false other]
      simp [begins]

/-- Where the scanners give the answer, and read what it depends on. -/
theorem scanners_right_iff (text : Str) (fallback : Bool) (plain : 0 ∉ text) :
    (Answers (fun s => nextWhitespace s fallback) (nextAnswer fallback) text ↔
      fallback = false ∨ text.dropWhile isBlank = [] ∨ Begins (text.dropWhile isBlank)) ∧
    (Answers (fun s => prevWhitespace s fallback) (prevAnswer fallback) text ↔
      Encoded text ∨ ∃ front cut, text = front ++ cut ∧ Encoded front ∧ Cut cut ∧
        prevAnswer fallback front = false) :=
  ⟨next_iff text fallback plain, prev_iff text fallback plain⟩

theorem scanners_right_iff_accent :
    (Answers (fun s => nextWhitespace s true) (nextAnswer true) [32, 0xC3, 0xA9] ↔
      true = false ∨ List.dropWhile isBlank [32, 0xC3, 0xA9] = [] ∨
        Begins (List.dropWhile isBlank [32, 0xC3, 0xA9])) ∧
    (Answers (fun s => prevWhitespace s true) (prevAnswer true) [32, 0xC3, 0xA9] ↔
      Encoded [32, 0xC3, 0xA9] ∨ ∃ front cut, [32, 0xC3, 0xA9] = front ++ cut ∧ Encoded front ∧
        Cut cut ∧ prevAnswer true front = false) :=
  scanners_right_iff [32, 0xC3, 0xA9] true (by decide)

/-- A byte of another encoding is taken for the end of the text. -/
theorem scanners_not_right :
    ¬Answers (fun s => nextWhitespace s true) (nextAnswer true) [0xE9] ∧
      ¬Answers (fun s => prevWhitespace s false) (prevAnswer false) [0xE9, 10] := by
  constructor
  · rintro ⟨seen, unread, -, ran, -⟩
    have stops : nextWhitespace ([0xE9] ++ [0]) true = some (true, []) := by decide
    cases stops.symm.trans ran
  · rintro ⟨seen, unread, -, ran, -⟩
    have stops : prevWhitespace ([0xE9, 10] ++ [0]) false = some (false, [0]) := by decide
    cases stops.symm.trans ran

end HandlebarsC.Scanner
