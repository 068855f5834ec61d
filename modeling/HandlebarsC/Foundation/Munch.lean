import HandlebarsC.Foundation.Regex

/-!
Scanners that take the rule with the longest match, and among several the first.
An action may put characters back and change the state that selects the rules.
-/

namespace Munch

variable {α β σ τ : Type}

/-- A pattern and how many of the characters it matches only look ahead. -/
structure Rule (α β : Type) where
  pattern : Regex α
  trailing : Nat
  action : β

def best : List (Rule α β) → List α → Option (Nat × Rule α β)
  | [], _ => none
  | rule :: rest, text =>
    match rule.pattern.longest text, best rest text with
    | some n, some (m, other) => if n < m then some (m, other) else some (n, rule)
    | some n, none => some (n, rule)
    | none, other => other

/-- What an action does with the text that its rule matched. -/
structure Turn (σ τ : Type) where
  back : Nat
  state : σ
  token : Option τ

abbrev Action (α σ τ : Type) := List α → σ → Turn σ τ

/-- One match: what it returns, the state after it and the text that is left. -/
def next (rules : σ → List (Rule α (Action α σ τ))) (state : σ) :
    List α → Option (Option τ × σ × List α)
  | [] => none
  | text => (best (rules state) text).map fun (n, rule) =>
    let turn := rule.action (text.take (n - rule.trailing)) state
    (turn.token, turn.state, text.drop (n - rule.trailing - turn.back))

theorem best_ne_none (member : rule ∈ rules) (matched : rule.pattern.longest text = some m) :
    best rules text ≠ none := by
  induction rules with
  | nil => cases member
  | cons first rest ih =>
    unfold best
    rcases List.mem_cons.mp member with rfl | later
    · rw [matched]
      cases best rest text with
      | none => simp
      | some other =>
        dsimp only
        split_ifs <;> simp
    · cases known : best rest text with
      | none => exact absurd known (ih later)
      | some other =>
        cases first.pattern.longest text with
        | none => simp
        | some n =>
          dsimp only
          split_ifs <;> simp

theorem best_spec (found : best rules text = some (n, rule)) :
    rule ∈ rules ∧ rule.pattern.longest text = some n ∧
      ∀ other ∈ rules, ∀ m, other.pattern.longest text = some m → m ≤ n := by
  induction rules generalizing n rule with
  | nil => cases found
  | cons first rest ih =>
    have later (some_later : best rest text = some (n, rule))
        (less : ∀ m, first.pattern.longest text = some m → m ≤ n) :
        rule ∈ first :: rest ∧ rule.pattern.longest text = some n ∧
          ∀ other ∈ first :: rest, ∀ m, other.pattern.longest text = some m → m ≤ n := by
      obtain ⟨member, matched, maximal⟩ := ih some_later
      exact ⟨List.mem_cons_of_mem _ member, matched, List.forall_mem_cons.mpr ⟨less, maximal⟩⟩
    unfold best at found
    split at found
    · rename_i size m other matched rest_found
      split_ifs at found with less
      · obtain ⟨rfl, rfl⟩ := Prod.mk.inj (Option.some.inj found)
        refine later rest_found ?_
        intro m same
        obtain rfl := Option.some.inj (matched.symm.trans same)
        omega
      · obtain ⟨rfl, rfl⟩ := Prod.mk.inj (Option.some.inj found)
        refine ⟨List.mem_cons_self .., matched, List.forall_mem_cons.mpr ⟨?_, ?_⟩⟩
        · intro m same
          exact Nat.le_of_eq (Option.some.inj (same.symm.trans matched))
        · intro other member m same
          have := (ih rest_found).2.2 other member m same
          omega
    · rename_i size matched missing
      obtain ⟨rfl, rfl⟩ := Prod.mk.inj (Option.some.inj found)
      refine ⟨List.mem_cons_self .., matched, List.forall_mem_cons.mpr ⟨?_, ?_⟩⟩
      · intro m same
        exact Nat.le_of_eq (Option.some.inj (same.symm.trans matched))
      · intro other member m same
        exact absurd missing (best_ne_none member same)
    · rename_i missing
      refine later found ?_
      intro m same
      rw [missing] at same
      cases same

theorem best_eq (before after : List (Rule α β)) {rule : Rule α β}
    (earlier : ∀ other ∈ before, ∀ m, other.pattern.longest text = some m → m < n)
    (found : rule.pattern.longest text = some n)
    (later : ∀ other ∈ after, ∀ m, other.pattern.longest text = some m → m ≤ n) :
    best (before ++ rule :: after) text = some (n, rule) := by
  induction before with
  | nil =>
    rw [List.nil_append]
    unfold best
    rw [found]
    cases rest : best after text with
    | none => rfl
    | some result =>
      obtain ⟨m, other⟩ := result
      obtain ⟨member, matched, _⟩ := best_spec rest
      have := later other member m matched
      dsimp only
      rw [if_neg (by omega)]
  | cons first before ih =>
    obtain ⟨less, earlier⟩ := List.forall_mem_cons.mp earlier
    rw [List.cons_append]
    unfold best
    rw [ih earlier]
    cases matched : first.pattern.longest text with
    | none => rfl
    | some m => exact if_pos (less m matched)

/-- A match that the text before settles stays the match whatever follows. -/
theorem best_append {rules : List (Rule α β)} {before after : List α}
    (known : ∀ rule ∈ rules, rule.pattern.settled before = true) :
    best rules (before ++ after) = best rules before := by
  induction rules with
  | nil => rfl
  | cons rule rest ih =>
    obtain ⟨first, later⟩ := List.forall_mem_cons.mp known
    unfold best
    rw [rule.pattern.longest_append before after first, ih later]

section Next

variable {rules : σ → List (Rule α (Action α σ τ))} {state : σ}

theorem next_cons (c : α) (text : List α) :
    next rules state (c :: text) = (best (rules state) (c :: text)).map fun found =>
      ((found.2.action ((c :: text).take (found.1 - found.2.trailing)) state).token,
        (found.2.action ((c :: text).take (found.1 - found.2.trailing)) state).state,
        (c :: text).drop (found.1 - found.2.trailing -
          (found.2.action ((c :: text).take (found.1 - found.2.trailing)) state).back)) := rfl

/-- What a match is: a rule with the longest match, and its action. -/
theorem next_spec (found : next rules state text = some (token, last, rest)) :
    ∃ n, ∃ rule ∈ rules state, rule.pattern.longest text = some n ∧
      (∀ other ∈ rules state, ∀ m, other.pattern.longest text = some m → m ≤ n) ∧
      token = (rule.action (text.take (n - rule.trailing)) state).token ∧
      last = (rule.action (text.take (n - rule.trailing)) state).state ∧
      rest = text.drop (n - rule.trailing -
        (rule.action (text.take (n - rule.trailing)) state).back) := by
  cases text with
  | nil => cases found
  | cons c text =>
    rw [next_cons] at found
    obtain ⟨⟨n, rule⟩, chosen, same⟩ := Option.map_eq_some_iff.mp found
    obtain ⟨member, matched, maximal⟩ := best_spec chosen
    simp only [Prod.mk.injEq] at same
    obtain ⟨rfl, rfl, rfl⟩ := same
    exact ⟨n, rule, member, matched, maximal, rfl, rfl, rfl⟩

theorem next_of_best (nonempty : text ≠ []) (chosen : best (rules state) text = some (n, rule)) :
    next rules state text =
      some ((rule.action (text.take (n - rule.trailing)) state).token,
        (rule.action (text.take (n - rule.trailing)) state).state,
        text.drop (n - rule.trailing - (rule.action (text.take (n - rule.trailing)) state).back)) := by
  cases text with
  | nil => exact absurd rfl nonempty
  | cons c text =>
    rw [next_cons, chosen]
    rfl

theorem next_append (known : ∀ rule ∈ rules state, rule.pattern.settled before = true)
    (found : next rules state before = some (token, last, rest)) (after : List α) :
    next rules state (before ++ after) = some (token, last, rest ++ after) := by
  cases before with
  | nil => cases found
  | cons c before =>
    rw [next_cons] at found
    obtain ⟨⟨n, rule⟩, chosen, same⟩ := Option.map_eq_some_iff.mp found
    obtain ⟨_, matched, _⟩ := best_spec chosen
    obtain ⟨start, ending, split, rfl, _⟩ := ((rule.pattern.longest_eq_some_iff ..).mp matched).matched
    have size : start.length ≤ (c :: before).length := by simp [split]
    rw [List.cons_append, next_cons, ← List.cons_append, best_append known, chosen]
    simp only [Prod.mk.injEq] at same
    obtain ⟨rfl, rfl, rfl⟩ := same
    rw [Option.map_some, List.take_append_of_le_length (by omega),
      List.drop_append_of_le_length (by omega)]

end Next

/-- A scanner each of whose matches leaves less to do. -/
structure Scanner (α σ τ : Type) where
  rules : σ → List (Rule α (Action α σ τ))
  effort : σ → List α → Nat
  progress : ∀ state text token after rest, next rules state text = some (token, after, rest) →
    effort after rest < effort state text

namespace Scanner

variable (scanner : Scanner α σ τ)

def run : Nat → σ → List α → List τ
  | 0, _, _ => []
  | fuel + 1, state, text =>
    match next scanner.rules state text with
    | none => []
    | some (token, after, rest) => token.toList ++ run fuel after rest

/-- The tokens of a text -/
def lex (state : σ) (text : List α) : List τ :=
  scanner.run (scanner.effort state text + 1) state text

/-- A part of a run, and the tokens it returns -/
inductive Emits : σ → List α → List τ → σ → List α → Prop where
  | refl (state : σ) (text : List α) : Emits state text [] state text
  | step (first : next scanner.rules state text = some (token, middle, rest))
      (later : Emits middle rest tokens last final) :
      Emits state text (token.toList ++ tokens) last final

variable {scanner}

theorem run_enough (enough : scanner.effort state text < fuel) :
    scanner.run fuel state text = scanner.lex state text := by
  unfold lex
  generalize size : scanner.effort state text = n at enough ⊢
  induction n using Nat.strongRecOn generalizing state text fuel with
  | ind n ih =>
    cases fuel with
    | zero => omega
    | succ fuel =>
      unfold run
      cases step : next scanner.rules state text with
      | none => rfl
      | some result =>
        obtain ⟨token, after, rest⟩ := result
        have less := scanner.progress _ _ _ _ _ step
        dsimp only
        rw [ih _ (by omega) rfl (by omega : _ < fuel), ih _ (by omega) rfl (by omega : _ < n)]

theorem lex_next (step : next scanner.rules state text = some (token, after, rest)) :
    scanner.lex state text = token.toList ++ scanner.lex after rest := by
  conv_lhs => unfold lex run
  rw [step]
  dsimp only
  rw [run_enough (scanner.progress _ _ _ _ _ step)]

theorem Emits.single (first : next scanner.rules state text = some (token, last, final)) :
    scanner.Emits state text token.toList last final := by
  simpa using Emits.step first (.refl last final)

theorem Emits.trans (front : scanner.Emits state text tokens middle rest)
    (behind : scanner.Emits middle rest more last final) :
    scanner.Emits state text (tokens ++ more) last final := by
  induction front with
  | refl => exact behind
  | step first _ ih =>
    rw [List.append_assoc]
    exact .step first (ih behind)

theorem Emits.lex (emits : scanner.Emits state text tokens last rest) :
    scanner.lex state text = tokens ++ scanner.lex last rest := by
  induction emits with
  | refl => rfl
  | step first _ ih => rw [lex_next first, ih, List.append_assoc]

/-- What every match keeps holds of every place that a run reaches. -/
theorem Emits.invariant (inv : σ → List α → Prop)
    (kept : ∀ state text token after rest, inv state text →
      next scanner.rules state text = some (token, after, rest) → inv after rest)
    (emits : scanner.Emits state text tokens last final) (start : inv state text) :
    inv last final := by
  induction emits with
  | refl => exact start
  | step first _ ih => exact ih (kept _ _ _ _ _ start first)

/-- Every token of a text is returned by a match at a place that its run reaches. -/
theorem exists_of_mem_lex (member : token ∈ scanner.lex state text) :
    ∃ tokens middle rest last final, scanner.Emits state text tokens middle rest ∧
      next scanner.rules middle rest = some (some token, last, final) := by
  generalize size : scanner.effort state text = n
  induction n using Nat.strongRecOn generalizing state text with
  | ind n ih =>
    cases step : next scanner.rules state text with
    | none =>
      unfold lex run at member
      rw [step] at member
      cases member
    | some result =>
      obtain ⟨emitted, after, rest⟩ := result
      rw [lex_next step] at member
      rcases List.mem_append.mp member with here | later
      · rw [Option.mem_toList] at here
        exact ⟨[], state, text, after, rest, .refl _ _, by rw [step, Option.mem_def.mp here]⟩
      · obtain ⟨tokens, middle, rest', last, final, emits, found⟩ :=
          ih _ (size ▸ scanner.progress _ _ _ _ _ step) later rfl
        exact ⟨_, middle, rest', last, final, .step step emits, found⟩

end Scanner

end Munch
