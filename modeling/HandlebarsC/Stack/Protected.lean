import HandlebarsC.Stack.Object

/-!
Sequences of calls on a stack with properly nested saves, and exactly when they leave
alone what was saved.
-/

namespace HandlebarsC

namespace StackObject

variable {α : Type}

inductive Operation (α : Type) where
  | push (value : α)
  | pop
  | set (offset : Nat) (value : α)
  | truncate (num : Nat)
  | save
  | restore
  deriving DecidableEq

/-- A stack, and the saves of it that are open with the innermost first. -/
structure World (α : Type) where
  stack : StackObject α
  saves : List (SaveBuf α)

/-- What a call leaves behind, and the error it threw. -/
structure Performed (α : Type) where
  error : Option Error
  world : World α

namespace World

def after (saves : List (SaveBuf α)) :
    Except (Error × StackObject α) (StackObject α) → Performed α
  | .ok stack => ⟨none, stack, saves⟩
  | .error (error, stack) => ⟨some error, stack, saves⟩

/-- One call. Only a save that is open can be restored. -/
def perform (world : World α) : Operation α → Option (Performed α)
  | .push value =>
    some (after world.saves ((world.stack.push value).mapError fun error => (error, world.stack)))
  | .pop => some (after world.saves
      ((world.stack.pop.map (·.2)).mapError fun error => (error, world.stack)))
  | .set offset value => some (after world.saves (world.stack.set offset value))
  | .truncate num => some (after world.saves (world.stack.truncate num))
  | .save => some ⟨none, world.stack.save.2, world.stack.save.1 :: world.saves⟩
  | .restore =>
    match world.saves with
    | [] => none
    | buf :: rest => some (after rest (world.stack.restore buf))

/-- The height that the innermost open save recorded. -/
def height (world : World α) : Nat := world.saves.head?.elim 0 SaveBuf.count

/-- A pop or set that would take an element from below that height or replace it. -/
def Touches (world : World α) : Operation α → Prop
  | .pop => 0 < world.stack.count ∧ world.stack.count ≤ world.height
  | .set offset _ => offset < world.height
  | _ => False

/-- Saved elements are neither changed nor removed, what would touch them throws and
changes nothing, and a restore gives back what there was at the matching save. -/
structure Sound (world : World α) (operation : Operation α) (result : Performed α) : Prop where
  kept : ∀ buf ∈ world.saves, buf.elements <:+ result.world.stack.v
  refused : world.Touches operation →
    result.error.isSome ∧ result.world.stack = world.stack
  restored : operation = .restore → ∀ buf rest, world.saves = buf :: rest →
    result.error = none ∧ result.world.stack.v = buf.elements ∧
      result.world.stack.protect = buf.protect

/-- No pop at exactly the saved height, no truncation below it, no set below it where a
copy has lost the protection, and no restore of a protection from above the elements. -/
def Fits (world : World α) : Operation α → Prop
  | .pop => world.stack.count ≠ world.height ∨ world.height = 0 ∨ world.stack.isShared
  | .set offset _ => world.height ≤ offset ∨
      if world.stack.isShared then world.stack.isTalloced = false
      else offset < world.stack.protect
  | .truncate num => world.height ≤ num ∨ world.stack.isShared
  | .restore => ∀ buf ∈ world.saves.head?,
      world.stack.count = buf.count ∨ buf.protect ≤ buf.count + 1
  | _ => True

/-- Every call of a sequence meets a condition, as far as its saves are properly nested. -/
def Always (condition : World α → Operation α → Performed α → Prop) :
    World α → List (Operation α) → Prop
  | _, [] => True
  | world, operation :: rest => ∀ result, world.perform operation = some result →
      condition world operation result ∧ result.world.Always condition rest

end World

/-- The saves that can be open on a stack: inside each lies what the next one saved, and it is
protected unless a copy was made since. -/
def Nested : List α → Nat → Bool → List (SaveBuf α) → Prop
  | _, _, _, [] => True
  | v, protect, shared, buf :: rest =>
    buf.elements <:+ v ∧ (protect = buf.count ∨ protect = 0) ∧
      (buf.count < v.length → shared = false) ∧ Nested buf.elements buf.protect shared rest

def World.Nested (world : World α) : Prop :=
  StackObject.Nested world.stack.v world.stack.protect world.stack.isShared world.saves

theorem Nested.unshare {v : List α} {protect : Nat} {saves : List (SaveBuf α)}
    (nested : Nested v protect shared saves) (owned : shared = false → other = false) :
    Nested v protect other saves := by
  induction saves generalizing v protect with
  | nil => trivial
  | cons buf rest ih =>
    obtain ⟨present, guarded, grown, inner⟩ := nested
    exact ⟨present, guarded, fun larger => owned (grown larger), ih inner⟩

/-- What is open stays so when the saved elements are still there. -/
theorem Nested.update {v w : List α} {protect level : Nat} {saves : List (SaveBuf α)}
    (nested : Nested v protect shared saves) (kept : ∀ buf ∈ saves, buf.elements <:+ w)
    (guarded : level = protect ∨ level = 0) (owned : shared = false → other = false)
    (grown : v.length < w.length → other = false) : Nested w level other saves := by
  cases saves with
  | nil => trivial
  | cons buf rest =>
    obtain ⟨present, safe, larger, inner⟩ := nested
    refine ⟨kept buf List.mem_cons_self, ?_, ?_, inner.unshare owned⟩
    · rcases guarded with rfl | rfl
      · exact safe
      · exact .inr rfl
    · intro above
      by_cases more : v.length < w.length
      · exact grown more
      · exact owned (larger (Nat.lt_of_lt_of_le above (Nat.le_of_not_lt more)))

/-- Everything that is saved lies in the stack. -/
theorem Nested.elements_suffix {v : List α} {protect : Nat} {saves : List (SaveBuf α)}
    (nested : Nested v protect shared saves) : ∀ buf ∈ saves, buf.elements <:+ v := by
  induction saves generalizing v protect with
  | nil => nofun
  | cons buf rest ih =>
    obtain ⟨present, -, -, inner⟩ := nested
    intro other member
    rcases List.mem_cons.mp member with rfl | later
    · exact present
    · exact (ih inner other later).trans present

/-- Where the innermost save left its mark, nothing above it is protected. -/
theorem World.protect_le {world : World α} (nested : world.Nested) (opened : world.saves ≠ []) :
    world.stack.protect ≤ world.height := by
  obtain ⟨stack, saves⟩ := world
  cases saves with
  | nil => exact absurd rfl opened
  | cons buf rest =>
    rcases nested.2.1 with guarded | lost
    · exact Nat.le_of_eq guarded
    · rw [lost]
      exact Nat.zero_le _

/-- Cutting the stack keeps what was saved as long as it is not cut below the height. -/
theorem World.kept_iff {world : World α} (nested : world.Nested) {w : List α}
    (cut : w <:+ world.stack.v) :
    (∀ buf ∈ world.saves, buf.elements <:+ w) ↔ world.height ≤ w.length := by
  obtain ⟨stack, saves⟩ := world
  cases saves with
  | nil => exact iff_of_true nofun (Nat.zero_le _)
  | cons buf rest =>
    change _ ↔ buf.count ≤ w.length
    rw [buf.counted]
    constructor
    · intro kept
      exact (kept buf List.mem_cons_self).length_le
    · intro room other member
      have inside : buf.elements <:+ w := List.suffix_of_suffix_length_le nested.1 cut room
      rcases List.mem_cons.mp member with rfl | later
      · exact inside
      · exact (nested.2.2.2.elements_suffix other later).trans inside

theorem World.height_le {world : World α} (nested : world.Nested) :
    world.height ≤ world.stack.count :=
  (World.kept_iff nested List.suffix_rfl).mp nested.elements_suffix

/-- What a call other than a save or a restore may do beside changing elements. -/
structure Moves (stack : StackObject α) (saves : List (SaveBuf α)) (result : Performed α) : Prop where
  saves : result.world.saves = saves
  protect : result.world.stack.protect = stack.protect ∨ result.world.stack.protect = 0
  owned : stack.isShared = false → result.world.stack.isShared = false
  grown : stack.count < result.world.stack.count → result.world.stack.isShared = false

theorem Moves.nested {world : World α} {result : Performed α}
    (moves : Moves world.stack world.saves result) (nested : world.Nested)
    (kept : ∀ buf ∈ world.saves, buf.elements <:+ result.world.stack.v) : result.world.Nested := by
  unfold World.Nested
  rw [moves.saves]
  exact Nested.update nested kept moves.protect moves.owned moves.grown

/-- A call that throws and leaves the stack as it was. -/
theorem Moves.refl (stack : StackObject α) (saves : List (SaveBuf α)) (error : Option Error) :
    Moves stack saves ⟨error, stack, saves⟩ :=
  ⟨rfl, .inl rfl, id, fun more => absurd more (Nat.lt_irrefl _)⟩

/-- A copy belongs to the caller alone. -/
theorem copyCtor_addref (stack : StackObject α) (capacity : Nat) :
    (stack.copyCtor capacity).addref.v = stack.v ∧ (stack.copyCtor capacity).addref.protect = 0 ∧
      (stack.copyCtor capacity).addref.isShared = false :=
  ⟨rfl, rfl, rfl⟩

theorem separate_ok {stack own : StackObject α} (separated : stack.separate = .ok own) :
    own.v = stack.v ∧ own.isShared = false ∧
      (stack.isShared = true ∧ stack.isTalloced = true ∧ own.protect = 0 ∨
        stack.isShared = false ∧ own = stack) := by
  unfold separate at separated
  by_cases shared : stack.isShared = true
  · rw [if_pos shared] at separated
    by_cases managed : stack.isTalloced = true
    · rw [if_pos managed] at separated
      cases separated
      exact ⟨rfl, rfl, .inl ⟨shared, managed, rfl⟩⟩
    · rw [if_neg managed] at separated
      cases separated
  · rw [if_neg shared] at separated
    cases separated
    have alone : stack.isShared = false := by simpa using shared
    exact ⟨rfl, alone, .inr ⟨alone, rfl⟩⟩

theorem separate_error {stack : StackObject α} (refused : stack.separate = .error error) :
    stack.isShared = true ∧ stack.isTalloced = false := by
  unfold separate at refused
  by_cases shared : stack.isShared = true
  · rw [if_pos shared] at refused
    by_cases managed : stack.isTalloced = true
    · rw [if_pos managed] at refused
      cases refused
    · exact ⟨shared, by simpa using managed⟩
  · rw [if_neg shared] at refused
    cases refused

theorem reserve_ok {stack own : StackObject α} (reserved : stack.reserve = .ok own) :
    own.v = stack.v ∧ own.isShared = false ∧ (own.protect = stack.protect ∨ own.protect = 0) := by
  unfold reserve at reserved
  by_cases room : stack.count < stack.capacity
  · rw [if_pos room] at reserved
    obtain ⟨same, alone, ⟨-, -, lost⟩ | ⟨-, rfl⟩⟩ := separate_ok reserved
    · exact ⟨same, alone, .inr lost⟩
    · exact ⟨rfl, alone, .inl rfl⟩
  · rw [if_neg room] at reserved
    by_cases managed : stack.isTalloced = true
    · rw [if_pos managed] at reserved
      cases reserved
      exact ⟨rfl, rfl, .inr rfl⟩
    · rw [if_neg managed] at reserved
      cases reserved

/-- A push adds one element, on a stack that the caller owns alone from then on. -/
theorem push_cases (stack : StackObject α) (value : α) :
    (∃ error, stack.push value = .error error) ∨
      ∃ own, stack.push value = .ok own ∧ own.v = value :: stack.v ∧ own.isShared = false ∧
        (own.protect = stack.protect ∨ own.protect = 0) := by
  unfold push
  cases reserved : stack.reserve with
  | error error => exact .inl ⟨error, rfl⟩
  | ok own =>
    obtain ⟨same, alone, guarded⟩ := reserve_ok reserved
    exact .inr ⟨_, rfl, congrArg (value :: ·) same, alone, guarded⟩

/-- The two ways in which a pop is refused, and the one in which it is not. -/
theorem pop_cons {stack : StackObject α} (present : stack.v = value :: rest) :
    (∃ error, stack.pop = .error error ∧ (stack.isShared = true ∨
        stack.isShared = false ∧ stack.count < stack.protect)) ∨
      stack.pop = .ok (some value, stack.holding rest) ∧ stack.isShared = false ∧
        stack.protect ≤ stack.count := by
  unfold pop
  rw [present]
  dsimp only
  by_cases shared : stack.isShared = true
  · rw [if_pos shared]
    exact .inl ⟨_, rfl, .inl shared⟩
  · have alone : stack.isShared = false := by simpa using shared
    rw [if_neg shared]
    by_cases safe : stack.count < stack.protect
    · rw [if_pos safe]
      exact .inl ⟨_, rfl, .inr ⟨alone, safe⟩⟩
    · rw [if_neg safe]
      exact .inr ⟨rfl, alone, Nat.le_of_not_lt safe⟩

/-- What a truncation leaves, where it returns and where it throws. -/
theorem truncateLoop_cases (num left : Nat) (stack : StackObject α) (enough : stack.count ≤ left) :
    (∃ w, truncateLoop num left stack = .ok (stack.holding w) ∧ w <:+ stack.v ∧
        min num stack.count ≤ w.length ∧ w.length ≤ num ∧
        (stack.count ≤ num ∨ stack.isShared = false ∧ stack.protect ≤ num + 1)) ∨
      ∃ w error, truncateLoop num left stack = .error (error, stack.holding w) ∧ w <:+ stack.v ∧
        num < w.length ∧ (stack.isShared = true ∧ w = stack.v ∨
          stack.isShared = false ∧ w.length < stack.protect) := by
  induction left generalizing stack with
  | zero =>
    have low : stack.count ≤ num := Nat.le_trans enough (Nat.zero_le _)
    exact .inl ⟨stack.v, rfl, List.suffix_rfl, Nat.min_le_right _ _, low, .inl low⟩
  | succ left ih =>
    unfold truncateLoop
    by_cases low : stack.count ≤ num
    · rw [if_pos low]
      exact .inl ⟨stack.v, rfl, List.suffix_rfl, Nat.min_le_right _ _, low, .inl low⟩
    · rw [if_neg low]
      cases present : stack.v with
      | nil =>
        have none : stack.count = 0 := congrArg List.length present
        exact absurd (none ▸ Nat.zero_le num) low
      | cons value rest =>
        have size : stack.count = rest.length + 1 := congrArg List.length present
        rcases pop_cons present with ⟨error, refused, why⟩ | ⟨popped, alone, bound⟩
        · rw [refused]
          refine .inr ⟨stack.v, error, rfl, present ▸ List.suffix_rfl, Nat.lt_of_not_le low, ?_⟩
          rcases why with shared | ⟨alone, safe⟩
          · exact .inl ⟨shared, present⟩
          · exact .inr ⟨alone, safe⟩
        · rw [popped]
          have fewer : (stack.holding rest).count ≤ left := by
            change rest.length ≤ left
            omega
          have inside : rest <:+ value :: rest := List.suffix_cons value rest
          rcases ih (stack.holding rest) fewer with
            ⟨w, ran, cut, least, most, ended⟩ | ⟨w, error, ran, cut, more, ended⟩
          · refine .inl ⟨w, ran, cut.trans inside, ?_, most, .inr ⟨alone, ?_⟩⟩
            · change min num rest.length ≤ w.length at least
              omega
            · rcases ended with few | ⟨-, bounded⟩
              · change rest.length ≤ num at few
                omega
              · exact bounded
          · refine .inr ⟨w, error, ran, cut.trans inside, more, .inr ⟨alone, ?_⟩⟩
            rcases ended with ⟨shared, -⟩ | ⟨-, bounded⟩
            · exact absurd (shared.symm.trans alone) (by decide)
            · exact bounded

/-- A call that changes nothing is sound, whether it throws or touches nothing. -/
theorem World.Sound.of_same {world : World α} {operation : Operation α} {result : Performed α}
    (nested : world.Nested) (same : result.world.stack = world.stack)
    (refused : world.Touches operation → result.error.isSome) (other : operation ≠ .restore) :
    world.Sound operation result where
  kept := by
    rw [same]
    exact nested.elements_suffix
  refused touches := ⟨refused touches, same⟩
  restored restores := absurd restores other

section Calls

variable {world : World α} {result : Performed α}

theorem push_sound (nested : world.Nested) (value : α)
    (performed : world.perform (.push value) = some result) :
    world.Sound (.push value) result ∧ Moves world.stack world.saves result := by
  cases performed
  rcases push_cases world.stack value with ⟨error, ran⟩ | ⟨own, ran, pushed, alone, guarded⟩
  · rw [ran]
    exact ⟨.of_same nested rfl False.elim nofun, Moves.refl _ _ _⟩
  · rw [ran]
    refine ⟨⟨?_, False.elim, nofun⟩, ⟨rfl, guarded, fun _ => alone, fun _ => alone⟩⟩
    intro buf member
    change buf.elements <:+ own.v
    rw [pushed]
    exact (nested.elements_suffix buf member).trans (List.suffix_cons _ _)

theorem pop_sound_iff (nested : world.Nested) (performed : world.perform .pop = some result) :
    (world.Sound .pop result ↔ world.Fits .pop) ∧ Moves world.stack world.saves result := by
  cases performed
  have low := World.height_le nested
  cases present : world.stack.v with
  | nil =>
    have none : world.stack.count = 0 := congrArg List.length present
    have ran : world.stack.pop = .ok (Option.none, world.stack) := by
      unfold pop
      rw [present]
    rw [ran]
    refine ⟨iff_of_true (.of_same nested rfl ?_ nofun) (.inr (.inl ?_)), Moves.refl _ _ _⟩
    · rintro ⟨some, -⟩
      exact absurd none (Nat.pos_iff_ne_zero.mp some)
    · exact Nat.eq_zero_of_le_zero (none ▸ low)
  | cons value rest =>
    have size : world.stack.count = rest.length + 1 := congrArg List.length present
    rcases pop_cons present with ⟨error, ran, why⟩ | ⟨ran, alone, -⟩
    · rw [ran]
      refine ⟨iff_of_true (.of_same nested rfl (fun _ => rfl) nofun) ?_, Moves.refl _ _ _⟩
      rcases why with shared | ⟨-, safe⟩
      · exact .inr (.inr shared)
      · by_cases opened : world.saves = []
        · exact .inr (.inl (by unfold World.height; rw [opened]; rfl))
        · have bound := World.protect_le nested opened
          exact .inl (by omega)
    · rw [ran]
      have cut : rest <:+ world.stack.v := present ▸ List.suffix_cons value rest
      have kept := World.kept_iff nested cut
      refine ⟨⟨?_, ?_⟩, ⟨rfl, .inl rfl, id, fun more => ?_⟩⟩
      · intro sound
        have room := kept.mp sound.kept
        exact .inl (by omega)
      · intro fits
        have above : world.height ≤ rest.length := by
          rcases fits with other | none | shared
          · omega
          · omega
          · exact absurd (alone.symm.trans shared) (by decide)
        refine ⟨kept.mpr above, fun touches => ?_, nofun⟩
        exact absurd touches.2 (by omega)
      · change world.stack.count < rest.length at more
        omega

theorem truncate_sound_iff (nested : world.Nested) (num : Nat)
    (performed : world.perform (.truncate num) = some result) :
    (world.Sound (.truncate num) result ↔ world.Fits (.truncate num)) ∧
      Moves world.stack world.saves result := by
  cases performed
  have low := World.height_le nested
  unfold truncate
  rcases truncateLoop_cases num world.stack.count world.stack (Nat.le_refl _) with
    ⟨w, ran, cut, least, most, ended⟩ | ⟨w, error, ran, cut, more, ended⟩
  · rw [ran]
    have kept := World.kept_iff nested cut
    refine ⟨⟨fun sound => .inl (Nat.le_trans (kept.mp sound.kept) most), fun fits => ?_⟩, ?_⟩
    · refine ⟨kept.mpr ?_, False.elim, nofun⟩
      rcases fits with bound | shared
      · omega
      · rcases ended with few | ⟨alone, -⟩
        · omega
        · exact absurd (alone.symm.trans shared) (by decide)
    · exact ⟨rfl, .inl rfl, id, fun larger => absurd cut.length_le (Nat.not_le_of_lt larger)⟩
  · rw [ran]
    have kept := World.kept_iff nested cut
    refine ⟨⟨fun sound => ?_, fun fits => ?_⟩, ?_⟩
    · rcases ended with ⟨shared, -⟩ | ⟨-, bound⟩
      · exact .inr shared
      · have room := kept.mp sound.kept
        by_cases opened : world.saves = []
        · exact .inl (by unfold World.height; rw [opened]; exact Nat.zero_le _)
        · have guarded := World.protect_le nested opened
          omega
    · refine ⟨kept.mpr ?_, False.elim, nofun⟩
      rcases fits with bound | shared
      · omega
      · rcases ended with ⟨-, rfl⟩ | ⟨alone, -⟩
        · exact low
        · exact absurd (alone.symm.trans shared) (by decide)
    · exact ⟨rfl, .inl rfl, id, fun larger => absurd cut.length_le (Nat.not_le_of_lt larger)⟩

theorem abandoned_v (stack : StackObject α) : stack.abandoned.v = stack.v := by
  unfold abandoned delref
  split
  · split
    · rfl
    · split <;> rfl
  · rfl

theorem abandoned_protect (stack : StackObject α) : stack.abandoned.protect = stack.protect := by
  unfold abandoned delref
  split
  · split
    · rfl
    · split <;> rfl
  · rfl

theorem abandoned_eq {stack : StackObject α} (alone : stack.isShared = false) :
    stack.abandoned = stack := by
  unfold abandoned
  rw [alone]
  rfl

/-- The caller is left with its stack, to which the copy no longer counts. -/
theorem moves_abandoned (stack : StackObject α) (saves : List (SaveBuf α)) (error : Error) :
    Moves stack saves ⟨some error, stack.abandoned, saves⟩ where
  saves := rfl
  protect := .inl (abandoned_protect stack)
  owned alone := by
    dsimp only
    rw [abandoned_eq alone]
    exact alone
  grown more := by
    have same : stack.abandoned.count = stack.count := congrArg List.length (abandoned_v stack)
    exact absurd more (by dsimp only; omega)

/-- Replacing an element at or above the height leaves what was saved. -/
theorem kept_set (nested : world.Nested) {offset : Nat} (value : α)
    (inside : offset < world.stack.count) (above : world.height ≤ offset) :
    ∀ buf ∈ world.saves,
      buf.elements <:+ world.stack.v.set (world.stack.count - 1 - offset) value := by
  intro buf member
  obtain ⟨front, split⟩ := nested.elements_suffix buf member
  have bound : buf.elements.length ≤ world.height := by
    obtain ⟨stack, saves⟩ := world
    cases saves with
    | nil => cases member
    | cons first rest =>
      change _ ≤ first.count
      rw [first.counted]
      rcases List.mem_cons.mp member with rfl | later
      · exact Nat.le_refl _
      · exact (nested.2.2.2.elements_suffix buf later).length_le
  have size : world.stack.count = front.length + buf.elements.length := by
    rw [Stack.count, ← split, List.length_append]
  rw [← split, List.set_append_left _ _ (by omega)]
  exact List.suffix_append _ _

theorem set_sound_iff (nested : world.Nested) (offset : Nat) (value : α)
    (performed : world.perform (.set offset value) = some result) :
    (world.Sound (.set offset value) result ↔ world.Fits (.set offset value)) ∧
      Moves world.stack world.saves result := by
  cases performed
  have low := World.height_le nested
  unfold set
  by_cases atTop : offset = world.stack.count
  · have fits : world.Fits (.set offset value) := .inl (by omega)
    have untouched : ¬world.Touches (.set offset value) := by
      intro touches
      change offset < world.height at touches
      omega
    rw [if_pos atTop]
    obtain ⟨sound, moves⟩ := push_sound nested value rfl
    exact ⟨iff_of_true ⟨sound.kept, fun touches => absurd touches untouched, nofun⟩ fits, moves⟩
  · rw [if_neg atTop]
    cases separated : world.stack.separate with
    | error error =>
      obtain ⟨shared, unmanaged⟩ := separate_error separated
      refine ⟨iff_of_true (.of_same nested rfl (fun _ => rfl) nofun) (.inr ?_), Moves.refl _ _ _⟩
      rw [if_pos shared]
      exact unmanaged
    | ok own =>
      obtain ⟨same, alone, guarded⟩ := separate_ok separated
      have size : own.count = world.stack.count := congrArg List.length same
      dsimp only
      by_cases outside : own.count ≤ offset
      · rw [if_pos outside]
        refine ⟨iff_of_true ⟨?_, fun touches => ?_, nofun⟩ (.inl (by omega)), moves_abandoned _ _ _⟩
        · change ∀ buf ∈ world.saves, buf.elements <:+ world.stack.abandoned.v
          rw [abandoned_v]
          exact nested.elements_suffix
        · change offset < world.height at touches
          omega
      · rw [if_neg outside]
        by_cases safe : offset < own.protect
        · rw [if_pos safe]
          rcases guarded with ⟨-, -, lost⟩ | ⟨mine, rfl⟩
          · omega
          · refine ⟨iff_of_true (.of_same nested (abandoned_eq mine) (fun _ => rfl) nofun)
              (.inr ?_), moves_abandoned _ _ _⟩
            rw [mine]
            exact safe
        · rw [if_neg safe]
          refine ⟨⟨fun sound => .inl ?_, fun fits => ?_⟩, rfl, ?_, fun _ => alone, fun _ => alone⟩
          · by_contra below
            exact absurd (sound.refused (Nat.lt_of_not_le below)).1 nofun
          · have above : world.height ≤ offset := by
              rcases fits with above | covered
              · exact above
              · rcases guarded with ⟨shared, managed, -⟩ | ⟨mine, rfl⟩
                · rw [if_pos shared] at covered
                  exact absurd (managed.symm.trans covered) (by decide)
                · rw [mine] at covered
                  exact absurd covered safe
            refine ⟨?_, fun touches => absurd touches (Nat.not_lt_of_le above), nofun⟩
            change ∀ buf ∈ world.saves, buf.elements <:+ own.v.set (own.count - 1 - offset) value
            rw [same, size]
            exact kept_set nested value (by omega) above
          · rcases guarded with ⟨-, -, lost⟩ | ⟨-, rfl⟩
            · exact .inr lost
            · exact .inl rfl

theorem save_sound (nested : world.Nested) (performed : world.perform .save = some result) :
    world.Sound .save result ∧ result.world.Nested := by
  cases performed
  refine ⟨⟨nested.elements_suffix, False.elim, nofun⟩, ?_⟩
  exact ⟨List.suffix_rfl, .inl rfl, fun more => absurd more (Nat.lt_irrefl _), nested⟩

theorem restore_sound_iff (nested : world.Nested)
    (performed : world.perform .restore = some result) :
    (world.Sound .restore result ↔ world.Fits .restore) ∧
      (world.Sound .restore result → result.world.Nested) := by
  obtain ⟨stack, saves⟩ := world
  cases saves with
  | nil => cases performed
  | cons buf rest =>
    cases performed
    obtain ⟨present, -, grown, inner⟩ := nested
    have size : buf.count ≤ stack.v.length := by
      rw [buf.counted]
      exact present.length_le
    unfold restore truncate
    rcases truncateLoop_cases buf.count _ { stack with protect := buf.protect } (Nat.le_refl _) with
      ⟨w, ran, cut, least, most, ended⟩ | ⟨w, error, ran, cut, more, ended⟩
    · rw [ran]
      change min buf.count stack.v.length ≤ w.length at least
      have same : w = buf.elements :=
        (List.suffix_of_suffix_length_le cut present (by rw [← buf.counted]; omega)).eq_of_length
          (by rw [← buf.counted]; omega)
      subst same
      have sound : World.Sound ⟨stack, buf :: rest⟩ .restore
          (World.after rest (.ok (holding { stack with protect := buf.protect } buf.elements))) := by
        refine ⟨?_, False.elim, ?_⟩
        · intro other member
          rcases List.mem_cons.mp member with rfl | later
          · exact List.suffix_rfl
          · exact inner.elements_suffix other later
        · rintro - other others split
          cases split
          exact ⟨rfl, rfl, rfl⟩
      refine ⟨iff_of_true sound ?_, fun _ => inner⟩
      rintro other found
      cases found
      rcases ended with few | ⟨-, bound⟩
      · exact .inl (Nat.le_antisymm few size)
      · exact .inr bound
    · rw [ran]
      have unsound : ¬World.Sound ⟨stack, buf :: rest⟩ .restore
          (World.after rest (.error (error, holding { stack with protect := buf.protect } w))) :=
        fun sound => nomatch (sound.restored rfl buf rest rfl).1
      refine ⟨iff_of_false unsound ?_, fun sound => absurd sound unsound⟩
      intro fits
      have larger : buf.count < stack.v.length := Nat.lt_of_lt_of_le more cut.length_le
      rcases fits buf rfl with level | bound
      · change stack.v.length = buf.count at level
        omega
      · rcases ended with ⟨shared, -⟩ | ⟨-, above⟩
        · exact absurd ((grown larger).symm.trans shared) (by decide)
        · change w.length < buf.protect at above
          omega

/-- A call on a stack whose saves nest is sound exactly where it fits, and they go on nesting. -/
theorem perform_sound_iff (nested : world.Nested) (operation : Operation α)
    (performed : world.perform operation = some result) :
    (world.Sound operation result ↔ world.Fits operation) ∧
      (world.Sound operation result → result.world.Nested) := by
  cases operation with
  | push value =>
    obtain ⟨sound, moves⟩ := push_sound nested value performed
    exact ⟨iff_of_true sound trivial, fun sound => moves.nested nested sound.kept⟩
  | pop =>
    obtain ⟨same, moves⟩ := pop_sound_iff nested performed
    exact ⟨same, fun sound => moves.nested nested sound.kept⟩
  | set offset value =>
    obtain ⟨same, moves⟩ := set_sound_iff nested offset value performed
    exact ⟨same, fun sound => moves.nested nested sound.kept⟩
  | truncate num =>
    obtain ⟨same, moves⟩ := truncate_sound_iff nested num performed
    exact ⟨same, fun sound => moves.nested nested sound.kept⟩
  | save =>
    obtain ⟨sound, next⟩ := save_sound nested performed
    exact ⟨iff_of_true sound trivial, fun _ => next⟩
  | restore => exact restore_sound_iff nested performed

theorem always_sound_iff (nested : world.Nested) (operations : List (Operation α)) :
    world.Always World.Sound operations ↔
      world.Always (fun world operation _ => world.Fits operation) operations := by
  induction operations generalizing world with
  | nil => exact Iff.rfl
  | cons operation rest ih =>
    constructor
    · intro always result performed
      obtain ⟨sound, later⟩ := always result performed
      obtain ⟨same, next⟩ := perform_sound_iff nested operation performed
      exact ⟨same.mp sound, (ih (next sound)).mp later⟩
    · intro always result performed
      obtain ⟨fits, later⟩ := always result performed
      obtain ⟨same, next⟩ := perform_sound_iff nested operation performed
      exact ⟨same.mpr fits, (ih (next (same.mpr fits))).mpr later⟩

end Calls

/-- Whatever is called on a stack, its saves keep what they protect and give it back exactly as
long as every call fits. -/
theorem saves_kept_iff (stack : StackObject α) (operations : List (Operation α)) :
    World.Always World.Sound ⟨stack, []⟩ operations ↔
      World.Always (fun world operation _ => world.Fits operation) ⟨stack, []⟩ operations := by
  have nested : World.Nested ⟨stack, []⟩ := trivial
  exact always_sound_iff nested operations

/-- The pop at the height of the save: its element goes. -/
theorem pop_takes_saved :
    ¬World.Always World.Sound ⟨{ (ctor 4 : StackObject Nat) with v := [7] }, []⟩ [.save, .pop] := by
  intro always
  obtain ⟨-, later⟩ := always _ rfl
  obtain ⟨sound, -⟩ := later _ rfl
  exact absurd (sound.kept _ List.mem_cons_self).length_le (by decide)

end StackObject

end HandlebarsC
