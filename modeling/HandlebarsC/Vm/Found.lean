import HandlebarsC.Vm.Steady

/-!
What is found in a value by name, but for where the JSON behind it is.
-/

namespace HandlebarsC

open Effect

/-- The value that the JSON library finds; a `null` is nothing. -/
def Json.shown : Json → Option (Value μ)
  | .null => none
  | .boolean value => some (.boolean value)
  | .int value => some (.integer value)
  | .double value => some (.float value)
  | .string value => some (.string value false)
  | .array items => some (.user 0 (.array items))
  | .object entries => some (.user 0 (.object entries))

namespace Value

variable {μ : Type} {platform : Platform}

/-- A value, but for where the JSON behind it is. -/
def anywhere : Value μ → Value μ
  | user _ json => user 0 json
  | value => value

/-- The member of a map that a segment names. -/
def member (platform : Platform) : Value μ → Str → Option (Value μ)
  | map _ entries, part => (StrMap.find platform.hash entries part).map anywhere
  | user _ (.object entries), part => (Exec.jsonMember entries part).bind Json.shown
  | _, _ => none

@[simp] theorem member_anywhere (value : Value μ) (part : Str) :
    value.anywhere.member platform part = value.member platform part := by
  cases value with
  | user addr json => cases json <;> rfl
  | _ => rfl

@[simp] theorem anywhere_anywhere (value : Value μ) : value.anywhere.anywhere = value.anywhere := by
  cases value <;> rfl

@[simp] theorem anywhere_eq_null {value : Value μ} : value.anywhere = .null ↔ value = .null := by
  cases value <;> simp [anywhere]

end Value

namespace Exec

variable {μ κ : Type} {platform : Platform}

/-- The procedure returns a value that holds, and makes no more than new addresses. -/
def Reads (proc : Exec μ κ α) (holds : α → Prop) : Prop :=
  ∀ machine, ∃ value alloc, proc machine =
    (.ok value { machine with vm := { machine.vm with alloc := alloc } }, []) ∧ holds value

theorem reads_pure {value : α} {holds : α → Prop} (held : holds value) :
    Reads (pure value : Exec μ κ α) holds :=
  fun machine => ⟨value, machine.vm.alloc, rfl, held⟩

theorem reads_bind {first : Exec μ κ β} {next : β → Exec μ κ α} {middle : β → Prop}
    {holds : α → Prop} (start : Reads first middle)
    (rest : ∀ value, middle value → Reads (next value) holds) : Reads (first >>= next) holds := by
  intro machine
  obtain ⟨value, alloc, ran, met⟩ := start machine
  obtain ⟨result, last, ended, held⟩ := rest value met
    { machine with vm := { machine.vm with alloc := alloc } }
  exact ⟨result, last, by rw [Proc.bind_ran ran, ended], held⟩

theorem bind_reads_congr {first : Exec μ κ β} {next other : β → Exec μ κ α} {middle : β → Prop}
    (start : Reads first middle) (same : ∀ value, middle value → next value = other value) :
    first >>= next = first >>= other := by
  funext machine
  obtain ⟨value, alloc, ran, met⟩ := start machine
  rw [Proc.bind_ran ran, Proc.bind_ran ran, same value met]

theorem allocate_reads : Reads (allocate : Exec μ κ Nat) fun _ => True :=
  fun _ => ⟨_, _, rfl, trivial⟩

theorem valueOfJson_reads (stale : Value μ) {json : Json} {value : Value μ}
    (shown : json.shown = some value) :
    Reads (valueOfJson stale json : Exec μ κ (Value μ)) fun found => found.anywhere = value := by
  cases json with
  | null => cases shown
  | array items | object entries =>
    cases shown
    exact reads_bind allocate_reads fun addr _ => reads_pure rfl
  | _ =>
    cases shown
    exact reads_pure rfl

theorem shown_eq_none {json : Json} : (json.shown : Option (Value μ)) = none ↔
    isJsonNull json = true := by
  cases json <;> simp [Json.shown, isJsonNull]

theorem foundJson_reads (item : Option Json) :
    Reads (foundJson item : Exec μ κ (Option (Value μ))) fun found =>
      found.map Value.anywhere = item.bind Json.shown := by
  cases item with
  | none => exact reads_pure rfl
  | some json =>
    unfold foundJson
    dsimp only [Option.bind_some]
    cases shown : (json.shown : Option (Value μ)) with
    | none =>
      rw [if_pos (shown_eq_none.mp shown)]
      exact reads_pure rfl
    | some value =>
      have notNull : ¬isJsonNull json = true := fun isNull =>
        nomatch (shown_eq_none.mpr isNull).symm.trans shown
      rw [if_neg notNull]
      exact reads_bind (valueOfJson_reads .null shown) fun found same => reads_pure (congrArg some same)

theorem mapFind_reads (value : Value μ) (part : Str) :
    Reads (mapFind platform value part : Exec μ κ _) fun found =>
      found.map Value.anywhere = value.member platform part := by
  cases value with
  | user addr json =>
    cases json with
    | object entries => exact foundJson_reads _
    | _ => exact reads_pure rfl
  | _ => exact reads_pure rfl

end Exec

end HandlebarsC
