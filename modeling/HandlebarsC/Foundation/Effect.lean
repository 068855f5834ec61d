import Mathlib.Data.List.Basic

/-!
Procedures that change a state, log what happens on the way and end in one of four
ways, and the rules that carry assertions and relations between states through them.
-/

namespace Effect

/-- How a procedure ended. Every ending has a last state. -/
inductive Outcome (σ α : Type) where
  | ok (value : α) (state : σ)
  | thrown (state : σ)
  | aborted (state : σ)
  | exhausted (state : σ)

namespace Outcome

/-- What holds of an ending: `post` of a normal one, `exit` of any other. -/
def Meets (post : α → σ → Prop) (exit : σ → Prop) : Outcome σ α → Prop
  | ok value state => post value state
  | thrown state => exit state
  | aborted state => exit state
  | exhausted state => exit state

/-- The value of a normal return. -/
def value? : Outcome σ α → Option α
  | ok value _ => some value
  | _ => none

theorem Meets.mono {outcome : Outcome σ α} (meets : outcome.Meets post exit)
    (onReturn : ∀ value state, post value state → wider value state)
    (onExit : ∀ state, exit state → widerExit state) : outcome.Meets wider widerExit := by
  cases outcome with
  | ok value state => exact onReturn value state meets
  | thrown state => exact onExit state meets
  | aborted state => exact onExit state meets
  | exhausted state => exact onExit state meets

end Outcome

/-- A procedure over states `σ`, with a log of events `ε` in their order. -/
def Proc (σ ε α : Type) := σ → Outcome σ α × List ε

namespace Proc

def ret (value : α) : Proc σ ε α := fun state => (.ok value state, [])

def andThen (first : Proc σ ε α) (next : α → Proc σ ε β) : Proc σ ε β := fun state =>
  match first state with
  | (.ok value state, log) => ((next value state).1, log ++ (next value state).2)
  | (.thrown state, log) => (.thrown state, log)
  | (.aborted state, log) => (.aborted state, log)
  | (.exhausted state, log) => (.exhausted state, log)

instance : Monad (Proc σ ε) where
  pure := ret
  bind := andThen

theorem pure_andThen (value : α) (next : α → Proc σ ε β) : andThen (ret value) next = next value := by
  funext state
  change ((next value state).1, [] ++ (next value state).2) = _
  rfl

theorem andThen_pure (proc : Proc σ ε α) : andThen proc ret = proc := by
  funext state
  unfold andThen
  rcases proc state with ⟨outcome, log⟩
  cases outcome with
  | ok value after =>
    change (Outcome.ok value after, log ++ []) = _
    rw [List.append_nil]
  | thrown state | aborted state | exhausted state => rfl

theorem andThen_assoc (proc : Proc σ ε α) (next : α → Proc σ ε β) (last : β → Proc σ ε γ) :
    andThen (andThen proc next) last = andThen proc fun value => andThen (next value) last := by
  funext state
  unfold andThen
  rcases proc state with ⟨outcome, log⟩
  cases outcome with
  | ok value after =>
    dsimp only
    rcases next value after with ⟨middle, later⟩
    cases middle with
    | ok value after =>
      dsimp only
      rw [List.append_assoc]
    | thrown state | aborted state | exhausted state => rfl
  | thrown state | aborted state | exhausted state => rfl

instance : LawfulMonad (Proc σ ε) := LawfulMonad.mk' _ andThen_pure pure_andThen andThen_assoc

/-- A bind after a return that logged nothing. -/
theorem bind_ran {first : Proc σ ε α} {next : α → Proc σ ε β} {state after : σ}
    (ran : first state = (.ok value after, [])) : (first >>= next) state = next value after := by
  change andThen first next state = _
  unfold andThen
  rw [ran]
  rfl

theorem bind_aborted {first : Proc σ ε α} {next : α → Proc σ ε β} {state after : σ}
    (ran : first state = (.aborted after, [])) : (first >>= next) state = (.aborted after, []) := by
  change andThen first next state = _
  unfold andThen
  rw [ran]

/-- What a run does that comes after these events. -/
def logged (log : List ε) (ran : Outcome σ α × List ε) : Outcome σ α × List ε :=
  (ran.1, log ++ ran.2)

theorem bind_logged {first : Proc σ ε α} {next : α → Proc σ ε β} {state after : σ} {log : List ε}
    (ran : first state = (.ok value after, log)) :
    (first >>= next) state = logged log (next value after) := by
  change andThen first next state = _
  unfold andThen
  rw [ran]
  rfl

/-- How a bind ends -/
theorem bind_outcome (first : Proc σ ε α) (next : α → Proc σ ε β) (state : σ) :
    ((first >>= next) state).1 = match (first state).1 with
      | .ok value after => (next value after).1
      | .thrown after => .thrown after
      | .aborted after => .aborted after
      | .exhausted after => .exhausted after := by
  change (andThen first next state).1 = _
  unfold andThen
  rcases first state with ⟨outcome, log⟩
  cases outcome <;> rfl

/-- Of a bind that returned, both parts did. -/
theorem bind_returned {first : Proc σ ε α} {next : α → Proc σ ε β} {state after : σ}
    {result : β} {log : List ε} (ran : (first >>= next) state = (.ok result after, log)) :
    ∃ value between before later, first state = (.ok value between, before) ∧
      next value between = (.ok result after, later) ∧ log = before ++ later := by
  change andThen first next state = _ at ran
  unfold andThen at ran
  rcases started : first state with ⟨outcome, before⟩
  rw [started] at ran
  cases outcome with
  | ok value between =>
    dsimp only at ran
    rcases ended : next value between with ⟨last, later⟩
    rw [ended] at ran
    cases ran
    exact ⟨value, between, before, later, rfl, ended, rfl⟩
  | thrown state | aborted state | exhausted state => cases ran

/-- What would follow a procedure that does not return makes no difference. -/
theorem bind_ended {first : Proc σ ε α} {state : σ}
    (ended : ∀ value after log, first state ≠ (.ok value after, log))
    (next other : α → Proc σ ε β) : (first >>= next) state = (first >>= other) state := by
  change andThen first next state = andThen first other state
  unfold andThen
  rcases ran : first state with ⟨outcome, log⟩
  cases outcome with
  | ok value after => exact absurd ran (ended value after log)
  | thrown state | aborted state | exhausted state => rfl

def read (view : σ → α) : Proc σ ε α := fun state => (.ok (view state) state, [])

theorem bind_read {view : σ → α} {next : α → Proc σ ε β} {state : σ} :
    (read view >>= next) state = next (view state) state := bind_ran rfl

def write (change : σ → σ) : Proc σ ε Unit := fun state => (.ok () (change state), [])

theorem bind_write {change : σ → σ} {next : Unit → Proc σ ε β} {state : σ} :
    (write change >>= next) state = next () (change state) := bind_ran rfl

def emit (event : ε) : Proc σ ε Unit := fun state => (.ok () state, [event])

def throw : Proc σ ε α := fun state => (.thrown state, [])

def abort : Proc σ ε α := fun state => (.aborted state, [])

def exhaust : Proc σ ε α := fun state => (.exhausted state, [])

/-- `if` without an `else` -/
def when (condition : Bool) (body : Proc σ ε Unit) : Proc σ ε Unit :=
  if condition then body else pure ()

/-- `setjmp` around a procedure: `recover` runs in the state of the throw. -/
def catching (body : Proc σ ε α) (recover : Proc σ ε α) : Proc σ ε α := fun state =>
  match body state with
  | (.thrown state, log) => ((recover state).1, log ++ (recover state).2)
  | other => other

/-- The weakest precondition for `post` on normal return and `exit` on any other end. -/
def wp (proc : Proc σ ε α) (post : α → σ → Prop) (exit : σ → Prop) (state : σ) : Prop :=
  (proc state).1.Meets post exit

/-- Where all that happens is `quiet`, it is `seen`, and the ending is as `wp` says. -/
def Logs (quiet seen : ε → Prop) (proc : Proc σ ε α) (post : α → σ → Prop) (exit : σ → Prop)
    (state : σ) : Prop :=
  (∀ event ∈ (proc state).2, quiet event) →
    (∀ event ∈ (proc state).2, seen event) ∧ (proc state).1.Meets post exit

/-- The procedure always returns, with a value that `holds`, and logs nothing. -/
def Returns (proc : Proc σ ε α) (holds : α → Prop) : Prop :=
  ∀ state, ∃ value after, proc state = (.ok value after, []) ∧ holds value

/-- From `state` the procedure returns as `post` says, and logs nothing. -/
def Yields (proc : Proc σ ε α) (post : α → σ → Prop) (state : σ) : Prop :=
  ∃ value after, proc state = (.ok value after, []) ∧ post value after

/-- It does so exactly if the condition holds. -/
def YieldsIff (condition : Prop) (proc : Proc σ ε α) (post : α → σ → Prop) (state : σ) : Prop :=
  (condition → proc.Yields post state) ∧
    (¬condition → ∀ value after, proc state ≠ (.ok value after, []))

section Rules

variable {post : α → σ → Prop} {exit : σ → Prop} {state : σ} {quiet seen : ε → Prop}

theorem wp_pure (holds : post value state) : (pure value : Proc σ ε α).wp post exit state := holds

theorem wp_bind {first : Proc σ ε β} {next : β → Proc σ ε α} :
    (first >>= next).wp post exit state ↔
      first.wp (fun value state => (next value).wp post exit state) exit state := by
  change (andThen first next state).1.Meets post exit ↔ (first state).1.Meets _ exit
  unfold andThen
  rcases first state with ⟨outcome, log⟩
  cases outcome <;> exact Iff.rfl

theorem wp_read {view : σ → β} {next : β → Proc σ ε α}
    (rest : (next (view state)).wp post exit state) : (read view >>= next).wp post exit state :=
  wp_bind.mpr rest

theorem wp_mono {proc : Proc σ ε α} {stronger : α → σ → Prop} {narrower : σ → Prop}
    (holds : proc.wp stronger narrower state)
    (onReturn : ∀ value after, stronger value after → post value after)
    (onExit : ∀ after, narrower after → exit after) : proc.wp post exit state :=
  Outcome.Meets.mono holds onReturn onExit

theorem wp_when {condition : Bool} {body : Proc σ ε Unit} {post : Unit → σ → Prop}
    (holds : condition = true → body.wp post exit state) (fails : condition = false → post () state) :
    (when condition body).wp post exit state := by
  cases condition with
  | true => exact holds rfl
  | false => exact fails rfl

theorem returns_pure {holds : α → Prop} (held : holds value) :
    (pure value : Proc σ ε α).Returns holds :=
  fun state => ⟨value, state, rfl, held⟩

theorem returns_bind {first : Proc σ ε β} {next : β → Proc σ ε α} {middle : β → Prop}
    {holds : α → Prop} (start : first.Returns middle)
    (rest : ∀ value, middle value → (next value).Returns holds) : (first >>= next).Returns holds := by
  intro state
  obtain ⟨value, between, ran, met⟩ := start state
  obtain ⟨result, after, ended, held⟩ := rest value met between
  refine ⟨result, after, ?_, held⟩
  change andThen first next state = _
  unfold andThen
  rw [ran]
  dsimp only
  rw [ended]
  rfl

theorem returns_mono {proc : Proc σ ε α} {stronger holds : α → Prop}
    (returns : proc.Returns stronger) (weaker : ∀ value, stronger value → holds value) :
    proc.Returns holds := by
  intro state
  obtain ⟨value, after, ran, held⟩ := returns state
  exact ⟨value, after, ran, weaker value held⟩

theorem yields_pure (holds : post value state) : (pure value : Proc σ ε α).Yields post state :=
  ⟨value, state, rfl, holds⟩

theorem yields_bind {first : Proc σ ε β} {next : β → Proc σ ε α} {middle : β → σ → Prop}
    (start : first.Yields middle state)
    (rest : ∀ value after, middle value after → (next value).Yields post after) :
    (first >>= next).Yields post state := by
  obtain ⟨value, between, ran, met⟩ := start
  obtain ⟨result, after, ended, holds⟩ := rest value between met
  exact ⟨result, after, by rw [bind_ran ran, ended], holds⟩

theorem yields_ran {first : Proc σ ε β} {next : β → Proc σ ε α} {between : σ}
    (ran : first state = (.ok value between, [])) (rest : (next value).Yields post between) :
    (first >>= next).Yields post state := by
  unfold Yields
  rw [bind_ran ran]
  exact rest

theorem yields_mono {proc : Proc σ ε α} {stronger : α → σ → Prop}
    (yields : proc.Yields stronger state)
    (weaker : ∀ value after, stronger value after → post value after) : proc.Yields post state := by
  obtain ⟨value, after, ran, holds⟩ := yields
  exact ⟨value, after, ran, weaker value after holds⟩

/-- A procedure that does not return in silence does not do so with more behind it. -/
theorem bind_not_silent {first : Proc σ ε β} {next : β → Proc σ ε α}
    (fails : ∀ value after, first state ≠ (.ok value after, [])) (result : α) (last : σ) :
    (first >>= next) state ≠ (.ok result last, []) := by
  change andThen first next state ≠ _
  unfold andThen
  rcases ran : first state with ⟨outcome, log⟩
  cases outcome with
  | ok value after =>
    intro same
    obtain ⟨-, silent⟩ := Prod.mk.inj same
    rw [(List.append_eq_nil_iff.mp silent).1] at ran
    exact fails value after ran
  | thrown after | aborted after | exhausted after => nofun

theorem Yields.bind_iff {first : Proc σ ε β} {next : β → Proc σ ε α} {middle : β → σ → Prop}
    {condition : Prop} (start : first.Yields middle state)
    (rest : ∀ value after, middle value after → (next value).YieldsIff condition post after) :
    (first >>= next).YieldsIff condition post state := by
  obtain ⟨value, between, ran, met⟩ := start
  obtain ⟨holds, fails⟩ := rest value between met
  unfold YieldsIff Yields
  rw [bind_ran ran]
  exact ⟨holds, fails⟩

theorem YieldsIff.bind {first : Proc σ ε β} {next : β → Proc σ ε α} {middle : β → σ → Prop}
    {before behind : Prop} (start : first.YieldsIff before middle state)
    (rest : ∀ value after, middle value after → (next value).YieldsIff behind post after) :
    (first >>= next).YieldsIff (before ∧ behind) post state := by
  by_cases here : before
  · obtain ⟨holds, fails⟩ := (start.1 here).bind_iff rest
    exact ⟨fun both => holds both.2, fun either => fails fun later => either ⟨here, later⟩⟩
  · exact ⟨fun both => absurd both.1 here, fun _ => bind_not_silent (start.2 here)⟩

theorem YieldsIff.andThen {first : Proc σ ε β} {next : β → Proc σ ε α} {middle : β → σ → Prop}
    {condition : Prop} (start : first.YieldsIff condition middle state)
    (rest : ∀ value after, middle value after → (next value).Yields post after) :
    (first >>= next).YieldsIff condition post state :=
  ⟨fun holds => yields_bind (start.1 holds) rest, fun fails => bind_not_silent (start.2 fails)⟩

theorem YieldsIff.congr {proc : Proc σ ε α} {condition other : Prop}
    (yields : proc.YieldsIff condition post state) (same : condition ↔ other) :
    proc.YieldsIff other post state := by
  rwa [← propext same]

theorem YieldsIff.mono {proc : Proc σ ε α} {condition : Prop} {stronger : α → σ → Prop}
    (yields : proc.YieldsIff condition stronger state)
    (weaker : ∀ value after, stronger value after → post value after) :
    proc.YieldsIff condition post state :=
  ⟨fun holds => yields_mono (yields.1 holds) weaker, yields.2⟩

/-- Where it returns, the condition held. -/
theorem YieldsIff.known {proc : Proc σ ε α} {condition : Prop}
    (yields : proc.YieldsIff condition post state) :
    proc.YieldsIff condition (fun value after => condition ∧ post value after) state :=
  ⟨fun holds => yields_mono (yields.1 holds) fun _ _ met => ⟨holds, met⟩, yields.2⟩

/-- What never returns in silence yields nothing. -/
theorem yieldsIff_false {proc : Proc σ ε α}
    (fails : ∀ value after, proc state ≠ (.ok value after, [])) :
    proc.YieldsIff False post state :=
  ⟨False.elim, fun _ => fails⟩

theorem Yields.iff_true {proc : Proc σ ε α} (yields : proc.Yields post state) :
    proc.YieldsIff True post state :=
  ⟨fun _ => yields, fun fails => absurd trivial fails⟩

theorem logs_silent {proc : Proc σ ε α} (silent : (proc state).2 = [])
    (holds : proc.wp post exit state) : proc.Logs quiet seen post exit state := by
  intro _
  refine ⟨?_, holds⟩
  rw [silent]
  exact fun _ none => nomatch none

/-- Of a procedure that logs nothing, when nothing is asked of its ending. -/
theorem logs_any {proc : Proc σ ε α} (silent : (proc state).2 = []) :
    proc.Logs quiet seen (fun _ _ => True) (fun _ => True) state := by
  refine logs_silent silent ?_
  unfold wp
  cases (proc state).1 <;> trivial

/-- What follows without logging adds nothing to the log. -/
theorem andThen_log {first : Proc σ ε β} {next : β → Proc σ ε α}
    (silent : ∀ value middle, (next value middle).2 = []) :
    (andThen first next state).2 = (first state).2 := by
  unfold andThen
  rcases first state with ⟨outcome, log⟩
  cases outcome with
  | ok value middle =>
    change log ++ (next value middle).2 = log
    rw [silent, List.append_nil]
  | thrown state | aborted state | exhausted state => rfl

theorem silent_bind {first : Proc σ ε β} {next : β → Proc σ ε α} (front : (first state).2 = [])
    (rest : ∀ value middle, (next value middle).2 = []) : ((first >>= next) state).2 = [] := by
  change (andThen first next state).2 = []
  unfold andThen
  generalize first state = ran at front ⊢
  obtain ⟨outcome, log⟩ := ran
  cases outcome with
  | ok value middle => exact List.append_eq_nil_iff.mpr ⟨front, rest value middle⟩
  | thrown state | aborted state | exhausted state => exact front

theorem silent_ite {condition : Prop} [Decidable condition] {first second : Proc σ ε α}
    (holds : (first state).2 = []) (fails : (second state).2 = []) :
    ((if condition then first else second) state).2 = [] := by
  split
  · exact holds
  · exact fails

theorem logs_pure (holds : post value state) :
    (pure value : Proc σ ε α).Logs quiet seen post exit state :=
  logs_silent rfl holds

theorem logs_read {view : σ → α} (holds : post (view state) state) :
    (read view : Proc σ ε α).Logs quiet seen post exit state :=
  logs_silent rfl holds

theorem logs_write {change : σ → σ} {post : Unit → σ → Prop} (holds : post () (change state)) :
    (write change : Proc σ ε Unit).Logs quiet seen post exit state :=
  logs_silent rfl holds

theorem logs_emit {event : ε} {post : Unit → σ → Prop}
    (holds : quiet event → seen event ∧ post () state) :
    (emit event : Proc σ ε Unit).Logs quiet seen post exit state := by
  intro allQuiet
  obtain ⟨isSeen, after⟩ := holds (allQuiet event (List.mem_singleton_self event))
  refine ⟨?_, after⟩
  intro other member
  rw [List.mem_singleton.mp member]
  exact isSeen

theorem logs_throw (holds : exit state) : (throw : Proc σ ε α).Logs quiet seen post exit state :=
  logs_silent rfl holds

theorem logs_abort (holds : exit state) : (abort : Proc σ ε α).Logs quiet seen post exit state :=
  logs_silent rfl holds

theorem logs_exhaust (holds : exit state) :
    (exhaust : Proc σ ε α).Logs quiet seen post exit state :=
  logs_silent rfl holds

theorem logs_bind {first : Proc σ ε β} {next : β → Proc σ ε α}
    (holds : first.Logs quiet seen (fun value state => (next value).Logs quiet seen post exit state)
      exit state) : (first >>= next).Logs quiet seen post exit state := by
  change (∀ event ∈ (andThen first next state).2, quiet event) →
    (∀ event ∈ (andThen first next state).2, seen event) ∧
      (andThen first next state).1.Meets post exit
  unfold Logs at holds
  unfold andThen
  generalize first state = ran at holds ⊢
  obtain ⟨outcome, log⟩ := ran
  cases outcome with
  | ok value middle =>
    intro allQuiet
    obtain ⟨seenFirst, rest⟩ := holds fun event member =>
      allQuiet event (List.mem_append_left _ member)
    obtain ⟨seenNext, ended⟩ := rest fun event member =>
      allQuiet event (List.mem_append_right _ member)
    refine ⟨?_, ended⟩
    intro event member
    rcases List.mem_append.mp member with earlier | later
    · exact seenFirst event earlier
    · exact seenNext event later
  | thrown state => exact holds
  | aborted state => exact holds
  | exhausted state => exact holds

theorem logs_mono {proc : Proc σ ε α} {stronger : α → σ → Prop} {narrower : σ → Prop}
    {fewer : ε → Prop} (holds : proc.Logs quiet fewer stronger narrower state)
    (onEvent : ∀ event, fewer event → seen event)
    (onReturn : ∀ value after, stronger value after → post value after)
    (onExit : ∀ after, narrower after → exit after) : proc.Logs quiet seen post exit state := by
  intro allQuiet
  obtain ⟨logged, ended⟩ := holds allQuiet
  exact ⟨fun event member => onEvent event (logged event member), ended.mono onReturn onExit⟩

/-- Two accounts of one run. -/
theorem logs_and {proc : Proc σ ε α} {other : α → σ → Prop} {alsoSeen : ε → Prop}
    (holds : proc.Logs quiet seen post exit state)
    (also : proc.Logs quiet alsoSeen other (fun _ => True) state) :
    proc.Logs quiet (fun event => seen event ∧ alsoSeen event)
      (fun value after => post value after ∧ other value after) exit state := by
  intro allQuiet
  obtain ⟨logged, ended⟩ := holds allQuiet
  obtain ⟨loggedToo, endedToo⟩ := also allQuiet
  refine ⟨fun event member => ⟨logged event member, loggedToo event member⟩, ?_⟩
  cases outcome : (proc state).1 with
  | ok value after =>
    rw [outcome] at ended endedToo
    exact ⟨ended, endedToo⟩
  | thrown after | aborted after | exhausted after =>
    rw [outcome] at ended
    exact ended

theorem logs_ite {condition : Prop} [Decidable condition] {first second : Proc σ ε α}
    (holds : condition → first.Logs quiet seen post exit state)
    (fails : ¬condition → second.Logs quiet seen post exit state) :
    (if condition then first else second).Logs quiet seen post exit state := by
  split
  · exact holds ‹_›
  · exact fails ‹_›

/-- What the recovery does counts as part of the run. -/
theorem logs_catching {body recover : Proc σ ε α}
    (holds : body.Logs quiet seen post
      (fun after => exit after ∧ recover.Logs quiet seen post exit after) state) :
    (catching body recover).Logs quiet seen post exit state := by
  change (∀ event ∈ (catching body recover state).2, quiet event) →
    (∀ event ∈ (catching body recover state).2, seen event) ∧
      (catching body recover state).1.Meets post exit
  unfold Logs at holds
  unfold catching
  generalize body state = ran at holds ⊢
  obtain ⟨outcome, log⟩ := ran
  cases outcome with
  | ok value after => exact holds
  | thrown after =>
    intro allQuiet
    obtain ⟨seenBody, -, recovered⟩ := holds fun event member =>
      allQuiet event (List.mem_append_left _ member)
    obtain ⟨seenRest, ended⟩ := recovered fun event member =>
      allQuiet event (List.mem_append_right _ member)
    refine ⟨?_, ended⟩
    intro event member
    rcases List.mem_append.mp member with earlier | later
    · exact seenBody event earlier
    · exact seenRest event later
  | aborted after | exhausted after =>
    intro allQuiet
    obtain ⟨seenBody, left, -⟩ := holds allQuiet
    exact ⟨seenBody, left⟩

end Rules

end Proc

/-- What a procedure that starts in a `ready` state may do, if all it logs is `quiet`:
the events it logs, the states it returns in and the states it leaves in otherwise. -/
structure Frame (σ ε : Type) where
  ready : σ → Prop
  quiet : ε → Prop
  logs : σ → ε → Prop
  stays : σ → σ → Prop
  leaves : σ → σ → Prop
  stays_refl : ∀ {state}, ready state → stays state state
  stays_trans : ∀ {first middle last}, stays first middle → stays middle last → stays first last
  ready_after : ∀ {state after}, ready state → stays state after → ready after
  logs_after : ∀ {first middle event}, stays first middle → logs middle event → logs first event
  leaves_refl : ∀ {state}, ready state → leaves state state
  leaves_after : ∀ {first middle last}, stays first middle → leaves middle last → leaves first last

namespace Frame

/-- From `state`, the procedure does only what the frame allows. -/
def Keeps (frame : Frame σ ε) (proc : Proc σ ε α) (state : σ) : Prop :=
  frame.ready state →
    proc.Logs frame.quiet (frame.logs state) (fun _ => frame.stays state) (frame.leaves state) state

variable {frame : Frame σ ε} {state : σ}

theorem keeps_pure (value : α) : frame.Keeps (pure value : Proc σ ε α) state :=
  fun ready => Proc.logs_pure (frame.stays_refl ready)

theorem keeps_read (view : σ → α) : frame.Keeps (Proc.read view) state :=
  fun ready => Proc.logs_read (frame.stays_refl ready)

theorem keeps_throw : frame.Keeps (Proc.throw : Proc σ ε α) state :=
  fun ready => Proc.logs_throw (frame.leaves_refl ready)

theorem keeps_abort : frame.Keeps (Proc.abort : Proc σ ε α) state :=
  fun ready => Proc.logs_abort (frame.leaves_refl ready)

theorem keeps_exhaust : frame.Keeps (Proc.exhaust : Proc σ ε α) state :=
  fun ready => Proc.logs_exhaust (frame.leaves_refl ready)

/-- The state a first part stays in is where the second part starts. -/
theorem Keeps.bind {first : Proc σ ε β} {next : β → Proc σ ε α} (front : frame.Keeps first state)
    (rest : ∀ value after, frame.stays state after → frame.Keeps (next value) after) :
    frame.Keeps (first >>= next) state := by
  intro ready
  apply Proc.logs_bind
  refine Proc.logs_mono (front ready) (fun _ logged => logged) ?_ (fun _ left => left)
  intro value middle stayed
  refine Proc.logs_mono (rest value middle stayed (frame.ready_after ready stayed)) ?_ ?_ ?_
  · intro event logged
    exact frame.logs_after stayed logged
  · intro _ last further
    exact frame.stays_trans stayed further
  · intro last left
    exact frame.leaves_after stayed left

theorem Keeps.read {next : β → Proc σ ε α} {view : σ → β}
    (rest : frame.Keeps (next (view state)) state) :
    frame.Keeps (Proc.read view >>= next) state := fun ready =>
  Proc.logs_bind (Proc.logs_read (rest ready))

theorem Keeps.ite {condition : Prop} [Decidable condition] {first second : Proc σ ε α}
    (holds : condition → frame.Keeps first state)
    (fails : ¬condition → frame.Keeps second state) :
    frame.Keeps (if condition then first else second) state := by
  split
  · exact holds ‹_›
  · exact fails ‹_›

end Frame

end Effect
