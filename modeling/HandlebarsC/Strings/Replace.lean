import HandlebarsC.Strings.Object
import HandlebarsC.Foundation.Replace

/-!
`handlebars_str_replace`, which builds a new string, and `handlebars_str_reduce`, which moves
the rest of the string forward behind each replacement.
-/

namespace HandlebarsC.Strings

open Replace

/-- `strncmp(left, right, n) == 0`, through memory that ends where the lists do. -/
def strncmpEq : Str → Str → Nat → Bool
  | _, _, 0 => true
  | char :: left, other :: right, n + 1 =>
    char == other && (char == 0 || strncmpEq left right n)
  | _, _, _ => false

/-- The loop of `handlebars_strnstr`, with the number of positions up to `end`. -/
def strnstrLoop (needle : Str) : Nat → Str → Option Nat
  | 0, _ => none
  | steps + 1, haystack =>
    if haystack.head? == needle.head? && strncmpEq haystack needle needle.length then some 0
    else (strnstrLoop needle steps haystack.tail).map (· + 1)

/-- `handlebars_strnstr`: how far behind `haystack` the needle is. A needle that is longer than
the haystack puts `end` in front of it. -/
def strnstr (haystack : Str) (haystackLen : Nat) (needle : Str) : Option Nat :=
  if needle.length = 0 || haystackLen = 0 then none
  else strnstrLoop needle (haystackLen + 1 - needle.length) haystack

/-- The loop of `handlebars_str_replace`, at whose start `tok` is `last_tok`. The number bounds
its rounds. -/
def replaceLoop (string : Object) (search replacement : Str) :
    Nat → Nat → Object → Option (Nat × Object)
  | 0, _, _ => none
  | fuel + 1, lastTok, newString =>
    match strnstr (string.val.drop lastTok) (string.len - lastTok) search with
    | none => some (lastTok, newString)
    | some offset =>
      (newString.append ((string.val.drop lastTok).take offset)).bind fun newString =>
      (newString.append replacement).bind fun newString =>
      let tok := lastTok + offset + search.length
      if tok ≥ string.len then some (tok, newString)
      else replaceLoop string search replacement fuel tok newString

/-- `handlebars_str_replace` -/
def strReplace (string : Object) (search replacement : Str) : Option Object :=
  if search.length = 0 || string.len = 0 then some string
  else
    (replaceLoop string search replacement string.len 0 (.init (string.len * 4 + 1))).bind
      fun (lastTok, newString) =>
    (newString.append ((string.val.drop lastTok).take (string.len - lastTok))).map
      fun newString => { newString with hash := 0 }.compact

/-- One round of `handlebars_str_reduce` at an occurrence. -/
def reduceAt (string : Object) (search replacement : Str) (tok : Nat) : Option Object :=
  (Buffer.write string.val tok replacement).bind fun val =>
  (Buffer.write val (tok + replacement.length)
    ((val.drop (tok + search.length)).take (string.len - search.length - tok))).bind fun val =>
  (Buffer.write val (string.len - search.length + replacement.length) [0]).bind fun val =>
  string.resized val (string.len - (search.length - replacement.length))

/-- The loop of `handlebars_str_reduce`. The number bounds its rounds. -/
def reduceLoop (search replacement : Str) : Nat → Nat → Object → Option Object
  | 0, _, _ => none
  | fuel + 1, tok, string =>
    match strnstr (string.val.drop tok) (string.len - tok) search with
    | none => some string
    | some offset =>
      (reduceAt string search replacement (tok + offset)).bind fun string =>
      let tok := tok + offset + replacement.length
      if tok ≥ string.len then some string else reduceLoop search replacement fuel tok string

/-- `handlebars_str_reduce` of a string with one holder -/
def strReduce (string : Object) (search replacement : Str) : Option Object :=
  if replacement.length > search.length || search.length = 0 || string.len = 0 then some string
  else
    (reduceLoop search replacement string.len 0 string).map fun string => { string with hash := 0 }

variable {string : Object} {search replacement text : Str}

/-! ### The search -/

theorem strncmpEq_iff (plain : 0 ∉ search) (haystack : Str) :
    strncmpEq haystack search search.length = true ↔ search <+: haystack := by
  induction search generalizing haystack with
  | nil => simp [strncmpEq]
  | cons char search ih =>
    have later := fun haystack => ih (fun inside => plain (List.mem_cons_of_mem _ inside)) haystack
    have nonzero : char ≠ 0 := fun zero => plain (zero ▸ List.mem_cons_self)
    cases haystack with
    | nil => simp [strncmpEq]
    | cons other haystack =>
      rw [List.length_cons, strncmpEq, List.cons_prefix_cons, ← later haystack]
      simp only [Bool.and_eq_true, Bool.or_eq_true, beq_iff_eq]
      constructor
      · rintro ⟨rfl, zero | same⟩
        · exact absurd zero nonzero
        · exact ⟨rfl, same⟩
      · rintro ⟨rfl, same⟩
        exact ⟨rfl, .inr same⟩

/-- The comparison of the first characters takes nothing away. -/
theorem found_iff (some : search ≠ []) (plain : 0 ∉ search) (haystack : Str) :
    (haystack.head? == search.head? && strncmpEq haystack search search.length) = true ↔
      search <+: haystack := by
  rw [Bool.and_eq_true, strncmpEq_iff plain]
  constructor
  · exact fun found => found.2
  · rintro ⟨rest, rfl⟩
    obtain ⟨char, search, rfl⟩ := List.exists_cons_of_ne_nil some
    exact ⟨beq_self_eq_true _, List.prefix_append _ _⟩

/-- The loop stops at the first of its positions where the needle is. -/
theorem strnstrLoop_spec (some : search ≠ []) (plain : 0 ∉ search) (steps : Nat) (haystack : Str) :
    match strnstrLoop search steps haystack with
    | .some offset => offset < steps ∧ search <+: haystack.drop offset ∧
        ∀ start < offset, ¬search <+: haystack.drop start
    | none => ∀ start < steps, ¬search <+: haystack.drop start := by
  induction steps generalizing haystack with
  | zero => exact fun start inside => absurd inside (Nat.not_lt_zero start)
  | succ steps ih =>
    rw [strnstrLoop]
    by_cases here : search <+: haystack
    · rw [if_pos ((found_iff some plain haystack).mpr here)]
      exact ⟨Nat.zero_lt_succ steps, here, fun start before => absurd before (Nat.not_lt_zero start)⟩
    · rw [if_neg (fun found => here ((found_iff some plain haystack).mp found))]
      have step (start : Nat) : haystack.tail.drop start = haystack.drop (start + 1) := by
        rw [← List.drop_one, List.drop_drop, Nat.add_comm]
      have later := ih haystack.tail
      simp only [step] at later
      cases found : strnstrLoop search steps haystack.tail with
      | none =>
        rw [found] at later
        intro start inside
        cases start with
        | zero => exact here
        | succ start => exact later start (Nat.lt_of_succ_lt_succ inside)
      | some offset =>
        rw [found] at later
        obtain ⟨inside, occurs, earlier⟩ := later
        refine ⟨Nat.succ_lt_succ inside, occurs, ?_⟩
        intro start before
        cases start with
        | zero => exact here
        | succ start => exact earlier start (Nat.lt_of_succ_lt_succ before)

/-- What lies behind a text does not matter where the needle ends inside it. -/
theorem occurs_inside (inside : start + search.length ≤ text.length) (rest : Str) :
    search <+: (text ++ rest).drop start ↔ search <+: text.drop start := by
  have room : search.length ≤ (text.drop start).length := by
    rw [List.length_drop]
    omega
  rw [List.drop_append_of_le_length (by omega), List.prefix_iff_eq_take, List.prefix_iff_eq_take,
    List.take_append_of_le_length room]

theorem occurs_length (some : search ≠ []) (occurs : search <+: text.drop start) :
    start + search.length ≤ text.length := by
  have short := occurs.length_le
  have positive := List.length_pos_of_ne_nil some
  rw [List.length_drop] at short
  omega

/-- Inside a text in memory, `handlebars_strnstr` finds the first occurrence, or there
is none. -/
theorem strnstr_spec (some : search ≠ []) (plain : 0 ∉ search) (text rest : Str) :
    match strnstr (text ++ rest) text.length search with
    | .some offset => ∃ front behind, front.length = offset ∧ First search text front behind
    | none => ∀ start, ¬search <+: text.drop start := by
  have positive := List.length_pos_of_ne_nil some
  unfold strnstr
  by_cases empty : text = []
  · subst empty
    simp only [List.length_nil, decide_true, Bool.or_true, if_true]
    intro start occurs
    have short := occurs_length some occurs
    rw [List.length_nil] at short
    omega
  · have nonempty := List.length_pos_of_ne_nil empty
    have guards : (search.length = 0 || text.length = 0 : Bool) = false := by
      simp [some, empty]
    rw [if_neg (by rw [guards]; exact Bool.false_ne_true)]
    have looped := strnstrLoop_spec some plain (text.length + 1 - search.length) (text ++ rest)
    cases found : strnstrLoop search (text.length + 1 - search.length) (text ++ rest) with
    | none =>
      rw [found] at looped
      intro start occurs
      have inside := occurs_length some occurs
      exact looped start (by omega) ((occurs_inside inside rest).mpr occurs)
    | some offset =>
      rw [found] at looped
      obtain ⟨inside, occurs, earlier⟩ := looped
      obtain ⟨behind, here⟩ := (occurs_inside (by omega) rest).mp occurs
      refine ⟨text.take offset, behind, ?_, ?_, ?_⟩
      · rw [List.length_take]
        omega
      · rw [List.append_assoc, here, List.take_append_drop]
      · intro start before found
        rw [List.length_take] at before
        exact earlier start (by omega) ((occurs_inside (occurs_length some found) rest).mpr found)

/-! ### The two functions -/

/-- The characters behind a position, and what lies behind them. -/
theorem val_drop (string : Object) (inside : position ≤ string.len) :
    string.val.drop position =
      string.text.drop position ++ string.val.drop string.len := by
  have split : string.text ++ string.val.drop string.len = string.val :=
    List.take_append_drop string.len string.val
  have room : position ≤ string.text.length := by rwa [string.length_text]
  conv_lhs => rw [← split, List.drop_append_of_le_length room]

/-- The search from a position inside a string. -/
theorem strnstr_text (some : search ≠ []) (plain : 0 ∉ search) (inside : position ≤ string.len) :
    match strnstr (string.val.drop position) (string.len - position) search with
    | .some offset => ∃ front behind, front.length = offset ∧
        First search (string.text.drop position) front behind
    | none => ∀ start, ¬search <+: (string.text.drop position).drop start := by
  have size : string.len - position = (string.text.drop position).length := by
    rw [List.length_drop, string.length_text]
  rw [val_drop string inside, size]
  exact strnstr_spec some plain _ _

/-- The rounds of `handlebars_str_replace` write what becomes of the rest of the text, but for
what stands behind the last occurrence. -/
theorem replaceLoop_spec (some : search ≠ []) (plain : 0 ∉ search) (string : Object)
    (replacement : Str) (fuel lastTok : Nat) (newString : Object) (inside : lastTok < string.len) (enough : string.len - lastTok ≤ fuel) :
    ∃ stop after out, replaceLoop string search replacement fuel lastTok newString =
        .some (stop, after) ∧ stop ≤ string.len ∧
      after.text ++ string.text.drop stop = newString.text ++ out ∧
      Replaced search replacement (string.text.drop lastTok) out := by
  induction fuel generalizing lastTok newString with
  | zero => omega
  | succ fuel ih =>
    have searched := strnstr_text some plain (Nat.le_of_lt inside)
    rw [replaceLoop]
    cases found : strnstr (string.val.drop lastTok) (string.len - lastTok) search with
    | none =>
      rw [found] at searched
      exact ⟨lastTok, newString, _, rfl, Nat.le_of_lt inside, rfl, .kept searched⟩
    | some offset =>
      rw [found] at searched
      obtain ⟨front, behind, rfl, first⟩ := searched
      have positive := List.length_pos_of_ne_nil some
      have whole := congrArg List.length first.here
      simp only [List.length_drop, string.length_text, List.length_append] at whole
      have before : (string.val.drop lastTok).take front.length = front := by
        rw [val_drop string (Nat.le_of_lt inside), first.here]
        simp only [List.append_assoc]
        exact List.take_left
      have after : string.text.drop (lastTok + front.length + search.length) = behind := by
        rw [Nat.add_assoc, ← List.drop_drop, first.here, ← List.length_append]
        exact List.drop_left
      obtain ⟨kept, success, copied, -⟩ := newString.append_spec front
      obtain ⟨written, successAfter, replaced, -⟩ := kept.append_spec replacement
      dsimp only
      rw [before, success, Option.bind_some, successAfter, Option.bind_some]
      split
      · rename_i ended
        have nothing : behind = [] := List.length_eq_zero_iff.mp (by omega)
        refine ⟨_, written, front ++ replacement ++ [], rfl, by omega, ?_,
          .replaced first (nothing ▸ replaced_nil some replacement)⟩
        rw [after, nothing, replaced.text, copied.text]
        simp only [List.append_assoc]
      · rename_i more
        obtain ⟨stop, last, out, looped, stops, rest, later⟩ :=
          ih (lastTok + front.length + search.length) written (by omega) (by omega)
        rw [after] at later
        refine ⟨stop, last, front ++ replacement ++ out, looped, stops, ?_, .replaced first later⟩
        rw [rest, replaced.text, copied.text]
        simp only [List.append_assoc]

theorem strReplace_spec (some : search ≠ []) (plain : 0 ∉ search) (string : Object)
    (replacement : Str) :
    ∃ after, strReplace string search replacement = .some after ∧
      Replaced search replacement string.text after.text := by
  have positive := List.length_pos_of_ne_nil some
  unfold strReplace
  by_cases empty : string.len = 0
  · refine ⟨string, if_pos (by simp [empty]), ?_⟩
    have nothing : string.text = [] := List.length_eq_zero_iff.mp (string.length_text.trans empty)
    rw [nothing]
    exact replaced_nil some replacement
  · have guards : (search.length = 0 || string.len = 0 : Bool) = false := by
      simp [some, empty]
    rw [if_neg (by rw [guards]; exact Bool.false_ne_true)]
    obtain ⟨stop, written, out, looped, stops, rest, replaced⟩ :=
      replaceLoop_spec some plain string replacement string.len 0 (.init (string.len * 4 + 1))
        (by omega) (by omega)
    have behind : (string.val.drop stop).take (string.len - stop) = string.text.drop stop := by
      rw [val_drop string stops]
      apply List.take_left'
      rw [List.length_drop, string.length_text]
    obtain ⟨after, success, appended, -⟩ := written.append_spec (string.text.drop stop)
    refine ⟨({ after with hash := 0 } : Object).compact, ?_, ?_⟩
    · rw [looped, Option.bind_some]
      dsimp only
      rw [behind, success, Option.map_some]
    · have text : ({ after with hash := 0 } : Object).compact.text = out := by
        rw [Object.text_compact]
        change after.text = out
        rw [appended.text, rest, Object.text_init, List.nil_append]
      rw [text]
      exact replaced

/-- One round takes the occurrence out, puts the replacement in and moves the rest up to it. -/
theorem reduceAt_spec (here : string.text = done ++ search ++ behind)
    (shorter : replacement.length ≤ search.length) :
    ∃ after, reduceAt string search replacement done.length = some after ∧
      after.text = done ++ replacement ++ behind := by
  have room := string.fits
  have whole := congrArg List.length here
  simp only [string.length_text, List.length_append] at whole
  have front : string.val.take done.length = done := by
    have taken := congrArg (List.take done.length) here
    rw [Object.text, List.take_take, Nat.min_eq_left (by omega), List.append_assoc,
      List.take_left] at taken
    exact taken
  obtain ⟨val₁, first⟩ : ∃ val, Buffer.write string.val done.length replacement = some val :=
    Buffer.exists_write (by omega)
  have size₁ := Buffer.length_write first
  have moved : (val₁.drop (done.length + search.length)).take
      (string.len - search.length - done.length) = behind := by
    have rest : string.text.drop (done.length + search.length) = behind := by
      rw [here, ← List.length_append]
      exact List.drop_left
    rw [Buffer.drop_write first (by omega), val_drop string (by omega), rest]
    apply List.take_left'
    omega
  obtain ⟨val₂, second⟩ :
      ∃ val, Buffer.write val₁ (done.length + replacement.length) behind = some val :=
    Buffer.exists_write (by omega)
  have size₂ := Buffer.length_write second
  obtain ⟨val₃, third⟩ :
      ∃ val, Buffer.write val₂ (string.len - search.length + replacement.length) [0] = some val :=
    Buffer.exists_write (by rw [List.length_singleton]; omega)
  have size₃ := Buffer.length_write third
  have inside : string.len - (search.length - replacement.length) < val₃.length := by omega
  have last : string.len - (search.length - replacement.length) =
      done.length + replacement.length + behind.length := by omega
  refine ⟨{ string with
    len := string.len - (search.length - replacement.length), val := val₃, fits := inside }, ?_, ?_⟩
  · simp only [reduceAt, first, Option.bind_some, moved, second, third, Object.resized]
    exact dif_pos inside
  · calc
      val₃.take (string.len - (search.length - replacement.length))
        = val₂.take (done.length + replacement.length + behind.length) := by
          rw [Buffer.take_write third (by omega), last]
      _ = val₁.take (done.length + replacement.length) ++ behind := Buffer.take_write_end second
      _ = done ++ replacement ++ behind := by rw [Buffer.take_write_end first, front]

/-- The rounds of `handlebars_str_reduce` turn the rest of the text into what becomes of it. -/
theorem reduceLoop_spec (some : search ≠ []) (plain : 0 ∉ search)
    (shorter : replacement.length ≤ search.length) (fuel : Nat) (string : Object)
    (done rest : Str) (here : string.text = done ++ rest) (more : rest ≠ [])
    (enough : rest.length ≤ fuel) :
    ∃ after out, reduceLoop search replacement fuel done.length string = .some after ∧
      after.text = done ++ out ∧ Replaced search replacement rest out := by
  induction fuel generalizing string done rest with
  | zero => exact absurd (List.length_eq_zero_iff.mp (Nat.le_zero.mp enough)) more
  | succ fuel ih =>
    have whole := congrArg List.length here
    rw [string.length_text, List.length_append] at whole
    have searched : match strnstr (string.val.drop done.length) (string.len - done.length) search with
        | .some offset => ∃ front behind, front.length = offset ∧ First search rest front behind
        | none => ∀ start, ¬search <+: rest.drop start := by
      have found := strnstr_text some plain (show done.length ≤ string.len by omega)
      rwa [here, List.drop_left] at found
    rw [reduceLoop]
    cases found : strnstr (string.val.drop done.length) (string.len - done.length) search with
    | none =>
      rw [found] at searched
      exact ⟨string, rest, rfl, here, .kept searched⟩
    | some offset =>
      rw [found] at searched
      obtain ⟨front, behind, rfl, first⟩ := searched
      have positive := List.length_pos_of_ne_nil some
      have sizes := congrArg List.length first.here
      simp only [List.length_append] at sizes
      have split : string.text = (done ++ front) ++ search ++ behind := by
        rw [here, first.here]
        simp only [List.append_assoc]
      obtain ⟨next, success, text⟩ := reduceAt_spec split shorter
      have length := congrArg List.length text
      simp only [next.length_text, List.length_append] at length
      rw [List.length_append] at success
      dsimp only
      rw [success, Option.bind_some]
      split
      · rename_i ended
        have nothing : behind = [] := List.length_eq_zero_iff.mp (by omega)
        refine ⟨next, front ++ replacement ++ [], rfl, ?_,
          .replaced first (nothing ▸ replaced_nil some replacement)⟩
        rw [text, nothing]
        simp only [List.append_assoc]
      · rename_i going
        have still : behind ≠ [] := by
          rintro rfl
          rw [List.length_nil] at length
          omega
        obtain ⟨after, out, looped, result, later⟩ :=
          ih next (done ++ front ++ replacement) behind text still (by omega)
        simp only [List.length_append] at looped
        refine ⟨after, front ++ replacement ++ out, looped, ?_, .replaced first later⟩
        rw [result]
        simp only [List.append_assoc]

theorem strReduce_spec (some : search ≠ []) (plain : 0 ∉ search) (string : Object)
    (shorter : replacement.length ≤ search.length) :
    ∃ after, strReduce string search replacement = .some after ∧
      Replaced search replacement string.text after.text := by
  have positive := List.length_pos_of_ne_nil some
  unfold strReduce
  by_cases empty : string.text = []
  · have nothing : string.len = 0 := by rw [← string.length_text, empty, List.length_nil]
    refine ⟨string, if_pos (by simp [nothing]), ?_⟩
    rw [empty]
    exact replaced_nil some replacement
  · have size : string.len ≠ 0 := by
      rw [← string.length_text]
      exact fun zero => empty (List.length_eq_zero_iff.mp zero)
    have guards : (replacement.length > search.length || search.length = 0 || string.len = 0 : Bool) =
        false := by
      simp [shorter, some, size]
    rw [if_neg (by rw [guards]; exact Bool.false_ne_true)]
    obtain ⟨after, out, looped, text, replaced⟩ :=
      reduceLoop_spec some plain shorter string.len string [] string.text rfl empty
        (Nat.le_of_eq string.length_text)
    refine ⟨{ after with hash := 0 }, ?_, ?_⟩
    · rw [List.length_nil] at looped
      rw [looped, Option.map_some]
    · change Replaced search replacement string.text after.text
      rw [text]
      exact replaced

theorem strnstrLoop_lt {steps : Nat} {haystack : Str}
    (found : strnstrLoop search steps haystack = some offset) : offset < steps := by
  induction steps generalizing haystack offset with
  | zero => cases found
  | succ steps ih =>
    rw [strnstrLoop] at found
    split at found
    · cases found
      exact Nat.zero_lt_succ _
    · obtain ⟨later, there, rfl⟩ := Option.map_eq_some_iff.mp found
      exact Nat.succ_lt_succ (ih there)

/-- What `handlebars_strnstr` returns is inside the haystack, whatever the needle is. -/
theorem strnstr_inside {haystack : Str} (found : strnstr haystack length search = some offset) :
    offset + search.length ≤ length := by
  unfold strnstr at found
  split at found
  · cases found
  · have before := strnstrLoop_lt found
    omega

/-- The rounds of `handlebars_str_reduce` come to an end and stay in the allocation, whatever is
searched for. -/
theorem exists_reduceLoop (nonempty : search ≠ []) (shorter : replacement.length ≤ search.length)
    (fuel tok : Nat) (string : Object) (inside : tok < string.len)
    (enough : string.len - tok ≤ fuel) :
    ∃ after, reduceLoop search replacement fuel tok string = some after := by
  induction fuel generalizing tok string with
  | zero => omega
  | succ fuel ih =>
    rw [reduceLoop]
    cases found : strnstr (string.val.drop tok) (string.len - tok) search with
    | none => exact ⟨string, rfl⟩
    | some offset =>
      have fits := strnstr_inside found
      have positive := List.length_pos_of_ne_nil nonempty
      have size := string.length_text
      have done : (string.text.take (tok + offset)).length = tok + offset := by
        rw [List.length_take]
        omega
      have taken : ((string.text.drop (tok + offset)).take search.length).length = search.length := by
        rw [List.length_take, List.length_drop]
        omega
      have split : string.text = string.text.take (tok + offset) ++
          (string.text.drop (tok + offset)).take search.length ++
          (string.text.drop (tok + offset)).drop search.length := by
        rw [List.append_assoc, List.take_append_drop, List.take_append_drop]
      obtain ⟨next, success, text⟩ := reduceAt_spec split (taken.symm ▸ shorter)
      rw [done] at success
      have same : reduceAt string search replacement (tok + offset) = some next := by
        rw [← success, reduceAt, reduceAt, taken]
      have length := congrArg List.length text
      simp only [next.length_text, List.length_append, done, List.length_drop, size] at length
      dsimp only
      rw [same, Option.bind_some]
      split
      · exact ⟨next, rfl⟩
      · exact ih _ next (by omega) (by omega)

theorem exists_strReduce (nonempty : search ≠ []) (shorter : replacement.length ≤ search.length)
    (string : Object) : ∃ after, strReduce string search replacement = some after := by
  unfold strReduce
  split
  · exact ⟨string, rfl⟩
  · rename_i guards
    have some : 0 < string.len := by
      simp only [Bool.or_eq_true, decide_eq_true_eq, not_or] at guards
      omega
    obtain ⟨after, looped⟩ := exists_reduceLoop nonempty shorter string.len 0 string some (Nat.le_refl _)
    exact ⟨{ after with hash := 0 }, by rw [looped, Option.map_some]⟩

/-- What becomes of every text when the occurrences of a word are replaced is determined; one
function returns it for every replacement, the other, in place, for every replacement that is
not longer than the word. -/
theorem str_replace_reduce (string : Object) (search replacement : Str) (some : search ≠ [])
    (plain : 0 ∉ search) :
    (∃ out, Replaced search replacement string.text out) ∧
      ∀ out, Replaced search replacement string.text out →
        (∃ after, strReplace string search replacement = .some after ∧ after.text = out) ∧
          (replacement.length ≤ search.length →
            ∃ after, strReduce string search replacement = .some after ∧ after.text = out) := by
  obtain ⟨built, success, replaced⟩ := strReplace_spec some plain string replacement
  refine ⟨⟨built.text, replaced⟩, ?_⟩
  intro out becomes
  refine ⟨⟨built, success, replaced.unique becomes⟩, ?_⟩
  intro shorter
  obtain ⟨edited, successAfter, reduced⟩ := strReduce_spec some plain string shorter
  exact ⟨edited, successAfter, reduced.unique becomes⟩

theorem str_replace_reduce_new :
    (∃ out, Replaced (bytes "ab") (bytes "a") (bytes "abbab") out) ∧
      ∀ out, Replaced (bytes "ab") (bytes "a") (bytes "abbab") out →
        (∃ after, strReplace (.ctor (bytes "abbab")) (bytes "ab") (bytes "a") = some after ∧
          after.text = out) ∧
          ((bytes "a").length ≤ (bytes "ab").length →
            ∃ after, strReduce (.ctor (bytes "abbab")) (bytes "ab") (bytes "a") = some after ∧
              after.text = out) :=
  str_replace_reduce (.ctor (bytes "abbab")) (bytes "ab") (bytes "a") (by decide) (by decide)

example : (strReduce (.ctor (bytes "abbab")) (bytes "ab") (bytes "a")).map Object.text =
    some (bytes "aba") := by
  decide

end HandlebarsC.Strings
