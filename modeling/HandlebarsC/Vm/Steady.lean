import HandlebarsC.Vm.Kept

/-!
The data, the programs in progress and the iterations in progress, which every call of the
VM leaves as they were.
-/

namespace HandlebarsC

open Effect

namespace Exec

variable {μ κ : Type}

structure Same (before after : Machine μ κ) : Prop where
  data : after.vm.data = before.vm.data
  inIteration : after.vm.inIteration = before.vm.inIteration
  activations : after.activations = before.activations

theorem Same.refl (machine : Machine μ κ) : Same machine machine := ⟨rfl, rfl, rfl⟩

theorem Same.trans {first middle last : Machine μ κ} (front : Same first middle)
    (rest : Same middle last) : Same first last :=
  ⟨rest.data.trans front.data, rest.inIteration.trans front.inIteration,
    rest.activations.trans front.activations⟩

theorem Held.same {before after : Machine μ κ} (held : Held before after) : Same before after :=
  ⟨congrArg Setting.data held.setting, congrArg Setting.inIteration held.setting,
    held.activations⟩

end Exec

/-- An opcode is executed inside the programs in progress, and with their data when it
belongs to the innermost one. -/
def Event.Inside (machine : Machine μ κ) : Event μ κ → Prop
  | opcode vm activations _ _ => ∃ inner, activations = inner ++ machine.activations ∧
      (inner = [] → vm.data = machine.vm.data)
  | _ => True

theorem Event.Inside.same {event : Event μ κ} (inside : event.Inside after)
    (data : after.vm.data = before.vm.data) (activations : after.activations = before.activations) :
    event.Inside before := by
  cases event with
  | opcode vm programs pc opcode =>
    obtain ⟨inner, present, own⟩ := inside
    exact ⟨inner, by rw [present, activations], fun none => (own none).trans data⟩
  | _ => trivial

theorem Event.Within.inside {env : Env μ κ} {inv : Invariant env} {machine : Machine μ κ}
    {event : Event μ κ} (within : event.Within inv machine) : event.Inside machine := by
  cases event with
  | opcode vm programs pc opcode =>
    obtain ⟨-, ⟨inner, activation, present⟩, -⟩ := within
    exact ⟨inner ++ [activation], by simp [present], fun none => by simp at none⟩
  | _ => trivial

namespace Exec

variable {μ κ : Type} {exact : Bool} {env : Env μ κ} {rec : Rec μ κ}

/-- With `exact`, a procedure that ends otherwise than by returning also leaves all that. -/
def steady (μ κ : Type) (exact : Bool) : Frame (Machine μ κ) (Event μ κ) where
  ready _ := True
  quiet := Event.Uncaught
  logs machine event := event.Inside machine
  stays := Same
  leaves before after := exact = true → Same before after
  stays_refl _ := .refl _
  stays_trans front rest := front.trans rest
  ready_after _ _ := trivial
  logs_after stayed logged := logged.same stayed.data stayed.activations
  leaves_refl _ _ := .refl _
  leaves_after front rest isExact := front.trans (rest isExact)

def Steady (exact : Bool) (proc : Exec μ κ α) : Prop :=
  ∀ machine, (steady μ κ exact).Keeps proc machine

theorem Steady.of_kept (env : Env μ κ) {proc : Exec μ κ α}
    (kept : Kept (Invariant.any env) exact proc) : Steady exact proc := by
  intro machine _
  exact Proc.logs_mono (kept machine trivial) (fun _ within => within.inside)
    (fun _ _ held => held.same) fun _ left isExact => (left isExact).same

/-- The functions that the VM comes back to leave all that. -/
structure Rec.Steady (rec : Rec μ κ) : Prop where
  executeProgramEx : ∀ program context data blockParams,
    Exec.Steady false (rec.executeProgramEx program context data blockParams)
  valueCall : ∀ value argv options, Exec.Steady false (rec.valueCall value argv options)

/-- A procedure that logs nothing does so whatever is looked for. -/
theorem Steady.silent {proc : Exec μ κ α} (steady : Steady false proc) {machine : Machine μ κ}
    (silent : (proc machine).2 = []) {seen : Event μ κ → Prop} :
    proc.Logs Event.Uncaught seen (fun _ => Same machine) (fun _ => True) machine := by
  have ended := (steady machine trivial (by simp [silent])).2
  exact Proc.logs_silent silent (ended.mono (fun _ _ stayed => stayed) fun _ _ => trivial)

/-- An iteration ends with the marks on the maps as they were when it began. -/
theorem same_iteration (value : Value μ) {machine : Machine μ κ} {body : Exec μ κ α}
    {seen : Event μ κ → Prop}
    (logs : ∀ begun : Machine μ κ, begun.vm.data = machine.vm.data →
      begun.activations = machine.activations →
      body.Logs Event.Uncaught seen (fun _ => Same begun) (fun _ => True) begun)
    (finish : α → β) :
    (beginIteration value >>= fun _ => body >>= fun result =>
      endIteration value >>= fun _ => Pure.pure (finish result) : Exec μ κ β).Logs
      Event.Uncaught seen (fun _ => Same machine) (fun _ => True) machine := by
  refine Kept.iteration_logs value (logs machine rfl rfl) (fun addr => ?_) finish
  refine Proc.logs_mono (logs (Machine.marked machine addr) rfl rfl) (fun _ logged => logged) ?_
    (fun _ left => left)
  intro _ after same
  refine ⟨same.data, ?_, same.activations⟩
  change after.vm.inIteration.erase addr = machine.vm.inIteration
  rw [same.inIteration]
  exact List.erase_cons_head addr machine.vm.inIteration

/-- An opcode is executed in the program that was entered, or in one inside it, and in the
program itself with its own data. -/
def EnteredWith (machine : Machine μ κ) (context : Value μ) (data blockParams : Option (Value μ)) :
    Event μ κ → Prop
  | .opcode vm activations _ _ => ∃ inner activation,
      activations = inner ++ activation :: machine.activations ∧
      activation.context = context ∧ activation.blockParams = blockParams ∧
      (inner = [] → vm.data = data.getD machine.vm.data)
  | _ => True

theorem enteredWith_of_entered {inv : Invariant env} {machine : Machine μ κ}
    {activation : Activation μ} {data : Option (Value μ)} {event : Event μ κ}
    (entered : event.Entered inv machine activation data) :
    EnteredWith machine activation.context data activation.blockParams event := by
  cases event with
  | opcode vm programs pc opcode =>
    obtain ⟨-, ⟨present, setting⟩ | ⟨⟨inner, other, present⟩, -⟩⟩ := entered
    · exact ⟨[], activation, present, rfl, rfl, fun _ => congrArg Setting.data setting⟩
    · exact ⟨inner ++ [other], activation, by simp [present], rfl, rfl, fun none => by simp at none⟩
  | _ => trivial

/-- A program that is executed has the data it was given, and everything is as it was when
it has ended. -/
theorem executeProgramEx_logs (env : Env μ κ) (fuel : Nat) (program : Int) (context : Value μ)
    (data blockParams : Option (Value μ)) (machine : Machine μ κ) :
    (executeProgramEx env (level env fuel) program context data blockParams).Logs Event.Uncaught
      (EnteredWith machine context data blockParams) (fun _ => Same machine) (fun _ => True)
      machine := by
  have calls := level_kept (.any env) fuel
  refine Proc.logs_mono
    (executeProgramEx_entered calls program context data blockParams trivial) ?_
    (fun _ _ held => held.same) (fun _ left => left)
  rintro event ⟨activation, rfl, rfl, -, -, entered⟩
  exact enteredWith_of_entered entered

end Exec

end HandlebarsC
