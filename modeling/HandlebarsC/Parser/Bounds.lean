import HandlebarsC.Parser.Delimiters
import Mathlib.Data.List.Induction

/-!
When the preprocessor for delimiters comes to an end, and reads and copies only what is there.
-/

namespace HandlebarsC.Parser

open Machine (Reaches Ends)

namespace Scan

/-- No new close delimiter: an equals sign follows the spaces. -/
def noClose (scan : Scan) (rest : Str) : Bool :=
  decide ((switchClose (scan.switchBody rest)).head? = some 61)

/-- A place in the text that the scanner does not leave as it should: a switch without a new close
delimiter, or a byte that is no switch where both delimiters are empty. -/
def stuck (scan : Scan) (tmpl : Str) : Bool :=
  decide (scan.state = .text ∧ (tmpl.drop scan.p).head? ≠ some 92) &&
    if scan.switchHere (tmpl.drop scan.p) then scan.noClose (tmpl.drop scan.p)
    else decide (scan.delimOpen = [] ∧ scan.delimClose = [])

end Scan

/-- A state of the scanner in a run -/
def Visits (tmpl : Str) (delimOpen delimClose : Option Str) (scan : Scan) : Prop :=
  tmpl ≠ [] ∧ Reaches (scanStep tmpl) (.start tmpl delimOpen delimClose) scan

/-- The preprocessor returns or throws: it does not go on for ever, and no read or copy outside of
the template stops it. The delimiters it switches to are not empty. -/
structure EndsWell (tmpl : Str) (delimOpen delimClose : Option Str) : Prop where
  ends : ∃ result, Preprocesses tmpl delimOpen delimClose result ∧
    ((∃ text, result = .ok text) ∨ ∃ error, result = .error (.thrown error))
  switches : ∀ scan next, Visits tmpl delimOpen delimClose scan → scan.state = .switch →
    switchDelimiters tmpl scan = .ok next → next.delimOpen ≠ [] ∧ next.delimClose ≠ []

namespace Scan

variable {scan : Scan} {tmpl rest : Str}

theorem At.drop (at_rest : scan.At tmpl rest) : tmpl.drop scan.p = rest := by
  obtain ⟨before, rfl, same⟩ := at_rest.position
  rw [← same, List.drop_left]

section Body

variable {body : Str}

theorem dropWhile_head {test : UInt8 → Bool} {whole rest : Str} (same : whole.dropWhile test = c :: rest) :
    test c = false := by
  have known := List.head?_dropWhile_not test whole
  rw [same] at known
  simpa using known

theorem switchOpen_head (same : switchOpen body = c :: rest) : c ≠ 32 := by
  simpa using dropWhile_head same

theorem switchSpace_head (same : switchSpace body = c :: rest) : c = 32 := by
  simpa using dropWhile_head same

theorem switchClose_head (same : switchClose body = c :: rest) : c ≠ 32 := by
  simpa using dropWhile_head same

theorem switchEnd_head (same : switchEnd body = c :: rest) : c = 61 := by
  simpa using dropWhile_head same

theorem newOpen_ne (member : c ∈ newOpen body) : c ≠ 32 := by
  simpa using List.all_eq_true.mp List.all_takeWhile c member

theorem newOpen_append (body : Str) : newOpen body ++ switchSpace body = switchOpen body :=
  List.takeWhile_append_dropWhile

theorem closeText_append (body : Str) : closeText body ++ switchEnd body = switchClose body :=
  List.takeWhile_append_dropWhile

/-- The new open delimiter is not empty, and ends in a byte that is no space. -/
theorem newOpen_last (some_space : switchSpace body ≠ []) :
    ∃ front c, newOpen body = front ++ [c] ∧ c ≠ 32 := by
  have some_open : newOpen body ≠ [] := by
    intro none
    obtain ⟨c, rest, same⟩ := List.exists_cons_of_ne_nil some_space
    have whole := newOpen_append body
    rw [none, List.nil_append, same] at whole
    exact switchOpen_head whole.symm (switchSpace_head same)
  refine ⟨(newOpen body).dropLast, (newOpen body).getLast some_open, ?_, ?_⟩
  · rw [List.dropLast_append_getLast]
  · exact newOpen_ne (List.getLast_mem some_open)

theorem spaces_split (text : Str) :
    (∃ n, text = List.replicate n 32) ∨ ∃ front c n, text = front ++ [c] ++ List.replicate n 32 ∧ c ≠ 32 := by
  induction text using List.reverseRecOn with
  | nil => exact .inl ⟨0, rfl⟩
  | append_singleton text c ih =>
    by_cases space : c = 32
    · rcases ih with ⟨n, rfl⟩ | ⟨front, d, n, rfl, other⟩
      · exact .inl ⟨n + 1, by rw [space, List.replicate_succ']⟩
      · exact .inr ⟨front, d, n + 1, by rw [space, List.replicate_succ', List.append_assoc _ _ [32]], other⟩
    · exact .inr ⟨text, c, 0, by simp, space⟩

/-- The bytes in front of the second equals sign are the new close delimiter and spaces. -/
theorem closeText_split (some_text : closeText body ≠ []) :
    ∃ front c n, closeText body = front ++ [c] ++ List.replicate n 32 ∧ c ≠ 32 := by
  rcases spaces_split (closeText body) with ⟨n, spaces⟩ | split
  · cases n with
    | zero => exact absurd spaces some_text
    | succ n =>
      have whole := closeText_append body
      rw [spaces, List.replicate_succ, List.cons_append] at whole
      exact absurd rfl (switchClose_head whole.symm)
  · exact split

theorem spaces_front (text : Str) : ∃ n, text.takeWhile (!· != 32) = List.replicate n 32 ∧
    text = List.replicate n 32 ++ text.dropWhile (!· != 32) := by
  have all : ∀ c ∈ text.takeWhile (!· != 32), c = 32 := by
    intro c member
    simpa using List.all_eq_true.mp List.all_takeWhile c member
  have spaces := List.eq_replicate_of_mem all
  refine ⟨_, spaces, ?_⟩
  conv_lhs => rw [← List.takeWhile_append_dropWhile (p := (!· != 32)) (l := text), spaces]

/-- The spaces behind the new open delimiter -/
theorem switchSpace_split (body : Str) : ∃ n, (switchSpace body).takeWhile (!· != 32) = List.replicate n 32 ∧
    switchSpace body = List.replicate n 32 ++ switchClose body :=
  spaces_front (switchSpace body)

theorem open_at (at_rest : scan.At tmpl rest) (fits : scan.delimOpen.length + 1 ≤ rest.length) :
    Rest tmpl (scan.p + (scan.delimOpen.length + 1) +
      ((scan.switchBody rest).takeWhile (!· != 32)).length) (switchOpen (scan.switchBody rest)) :=
  (at_rest.switchBody fits).past _

theorem close_at (at_rest : scan.At tmpl rest) (fits : scan.delimOpen.length + 1 ≤ rest.length) :
    Rest tmpl (scan.closeStart (scan.switchBody rest)) (switchClose (scan.switchBody rest)) :=
  ((open_at at_rest fits).past _).past _

theorem copyText_negative (tmpl : Str) (p : Nat) (length : Int) (negative : length < 0) :
    copyText tmpl p length = .error (.copy p length) :=
  if_neg (by omega)

/-- Without a new close delimiter its length is negative. -/
theorem switch_noClose (at_rest : scan.At tmpl rest) (fits : scan.delimOpen.length + 1 ≤ rest.length)
    (none : scan.noClose rest = true) :
    ∃ p length, switchDelimiters tmpl scan = .error (.copy p length) := by
  rw [switchDelimiters_eq at_rest fits]
  have opened := open_at at_rest fits
  unfold noClose at none
  unfold closeStart
  generalize scan.switchBody rest = body at none opened ⊢
  obtain ⟨behind, close_eq⟩ : ∃ behind, switchClose body = 61 :: behind := by
    cases close : switchClose body with
    | nil => simp [close] at none
    | cons c behind =>
      obtain rfl : c = 61 := by simpa [close] using none
      exact ⟨behind, rfl⟩
  obtain ⟨n, spaces, space_eq⟩ := switchSpace_split body
  rw [close_eq] at space_eq
  have some_space : switchSpace body ≠ [] := by simp [space_eq]
  have some_end : switchEnd body ≠ [] := by simp [switchEnd, close_eq]
  have no_text : closeText body = [] := by simp [closeText, close_eq]
  have positive : n ≠ 0 := by
    rintro rfl
    exact absurd (switchSpace_head space_eq) (by decide)
  obtain ⟨front, c, open_eq, other⟩ := newOpen_last some_space
  rw [← newOpen_append, open_eq, List.append_assoc, space_eq] at opened
  have back := scanBack_spaces opened.drop other ⟨61 :: behind, rfl⟩
  rw [if_neg some_space, if_neg some_end, no_text, spaces, open_eq, List.length_append,
    List.length_singleton, List.length_replicate, List.length_nil, Nat.add_zero, ← Nat.add_assoc, back]
  rw [Except.bind, copyText_negative]
  · exact ⟨_, _, rfl⟩
  · omega

/-- With one the switch is accepted, or throws. -/
theorem switch_some (at_rest : scan.At tmpl rest) (fits : scan.delimOpen.length + 1 ≤ rest.length)
    (some_close : scan.noClose rest = false) :
    (∃ error, switchDelimiters tmpl scan = .error (.thrown error)) ∨
      ∃ newClose n, newClose ≠ [] ∧ newClose.getLast? ≠ some 32 ∧
        closeText (scan.switchBody rest) = newClose ++ List.replicate n 32 ∧
        switchSpace (scan.switchBody rest) ≠ [] ∧ switchEnd (scan.switchBody rest) ≠ [] ∧
        scan.closeHere (switchEnd (scan.switchBody rest)).tail = true ∧
        switchDelimiters tmpl scan = .ok (scan.switched (scan.switchBody rest) newClose) := by
  rw [switchDelimiters_eq at_rest fits]
  have closed := close_at at_rest fits
  unfold noClose at some_close
  generalize scan.switchBody rest = body at some_close closed ⊢
  by_cases no_space : switchSpace body = []
  · exact .inl ⟨_, if_pos no_space⟩
  by_cases no_end : switchEnd body = []
  · exact .inl ⟨_, (if_neg no_space).trans (if_pos no_end)⟩
  have some_text : closeText body ≠ [] := by
    intro none
    obtain ⟨c, behind, end_eq⟩ := List.exists_cons_of_ne_nil no_end
    have whole := closeText_append body
    rw [none, List.nil_append, end_eq, switchEnd_head end_eq] at whole
    simp [← whole] at some_close
  obtain ⟨front, c, n, text_eq, other⟩ := closeText_split some_text
  rw [← closeText_append, text_eq, List.append_assoc, List.append_assoc] at closed
  have back := scanBack_spaces closed.drop other ⟨switchEnd body, rfl⟩
  have size : scan.closeStart body + (closeText body).length = scan.closeStart body + front.length + 1 + n := by
    rw [text_eq]
    simp
    omega
  have copied : copyText tmpl (scan.closeStart body)
      (((scan.closeStart body + front.length + 1 : Nat) : Int) - (scan.closeStart body : Int)) =
      .ok (front ++ [c]) := by
    have whole : Rest tmpl (scan.closeStart body)
        (front ++ [c] ++ (List.replicate n 32 ++ switchEnd body)) := by
      rwa [List.append_assoc]
    rw [← whole.copyText]
    congr 1
    simp
    omega
  rw [if_neg no_space, if_neg no_end, size, back, Except.bind, copied, Except.bind]
  cases ended : scan.closeHere (switchEnd body).tail with
  | false => exact .inl ⟨_, rfl⟩
  | true =>
    refine .inr ⟨front ++ [c], n, by simp, by simp [other], text_eq, no_space, no_end, rfl, ?_⟩
    rfl

end Body

/-- What holds of the scanner at each of its labels, as long as it was not stuck. -/
structure Inv (scan : Scan) (tmpl : Str) : Prop where
  here : ∃ rest, rest ≠ [] ∧ scan.At tmpl rest ∧
    (scan.state = .switch → scan.switchHere rest = true ∧ scan.noClose rest = false)

/-- The work left: the rank of the labels depends on which delimiter is sure not to be empty. -/
def effort (scan : Scan) : Nat :=
  3 * scan.i.toNat + match scan.state with
    | .text => 2
    | .switch => 1
    | .tag => if scan.delimClose = [] then 3 else 1

/-- A turn that goes on closer to the end, or ends with a text or an error. -/
def Proceeds (scan : Scan) (tmpl : Str) : Machine.Turn Scan (Except Stop Str) → Prop
  | .goes next => next.Inv tmpl ∧ next.effort < scan.effort
  | .ends result => (∃ text, result = .ok text) ∨ ∃ error, result = .error (.thrown error)

theorem At.inv (at_rest : scan.At tmpl rest) (some_rest : rest ≠ []) (state : scan.state ≠ .switch) :
    scan.Inv tmpl :=
  ⟨rest, some_rest, at_rest, fun is => absurd is state⟩

theorem effort_text (at_rest : scan.At tmpl rest) (state : scan.state = .text) :
    scan.effort = 3 * rest.length + 2 := by
  rw [effort, at_rest.count, state]
  rfl

theorem effort_tag (at_rest : scan.At tmpl rest) (state : scan.state = .tag) :
    scan.effort = 3 * rest.length + if scan.delimClose = [] then 3 else 1 := by
  rw [effort, at_rest.count, state]
  rfl

theorem switch_fits (here : scan.switchHere rest = true) :
    scan.delimOpen.length + scan.delimClose.length + 4 ≤ rest.length := by
  simp only [switchHere, Bool.and_eq_true, decide_eq_true_eq] at here
  exact here.1

theorem open_fits (here : scan.openHere rest = true) :
    scan.delimOpen.length + scan.delimClose.length + 1 ≤ rest.length := by
  simp only [openHere, Bool.and_eq_true, decide_eq_true_eq] at here
  exact here.1

theorem close_fits (here : scan.closeHere rest = true) : scan.delimClose.length ≤ rest.length := by
  simp only [closeHere, Bool.and_eq_true, decide_eq_true_eq] at here
  exact here.1

/-- Behind bytes that a step has copied -/
theorem behind_proceeds {before : Scan} (at_next : (scan.moved n text).At tmpl rest)
    (state : scan.state ≠ .switch) (less : (scan.moved n text).effort < before.effort) :
    before.Proceeds tmpl (scan.behind n text rest) := by
  unfold behind
  by_cases done : rest = []
  · rw [if_pos done]
    exact .inl ⟨_, rfl⟩
  · rw [if_neg done]
    exact ⟨at_next.inv done state, less⟩

theorem open_proceeds (at_rest : scan.At tmpl rest) (state : scan.state = .text)
    (here : scan.openHere rest = true) (some_delim : ¬(scan.delimOpen = [] ∧ scan.delimClose = [])) :
    scan.Proceeds tmpl (.goes { scan.moved scan.delimOpen.length [123, 123] with state := .tag }) := by
  have fits := open_fits here
  have whole : scan.At tmpl (rest.take scan.delimOpen.length ++ rest.drop scan.delimOpen.length) := by
    rwa [List.take_append_drop]
  have moved := whole.moved [123, 123]
  rw [List.length_take, Nat.min_eq_left (by omega)] at moved
  have next_at : Scan.At { scan.moved scan.delimOpen.length [123, 123] with state := .tag } tmpl
      (rest.drop scan.delimOpen.length) := ⟨moved.position, moved.count⟩
  have some_rest : rest.drop scan.delimOpen.length ≠ [] := by
    rw [Ne, List.drop_eq_nil_iff]
    omega
  refine ⟨next_at.inv some_rest (fun is => nomatch is), ?_⟩
  rw [effort_tag next_at rfl, effort_text at_rest state, List.length_drop]
  change _ + (if scan.delimClose = [] then 3 else 1) < _
  split_ifs with none
  · have some_open : scan.delimOpen ≠ [] := fun no_open => some_delim ⟨no_open, none⟩
    have := List.length_pos_of_ne_nil some_open
    omega
  · omega

theorem text_proceeds (at_rest : scan.At tmpl (c :: rest)) (state : scan.state = .text)
    (free : scan.stuck tmpl = false) : scan.Proceeds tmpl (scanStep tmpl scan) := by
  have size := effort_text at_rest state
  have not_switch : scan.state ≠ .switch := by simp [state]
  by_cases slash : c = 92
  · subst slash
    cases rest with
    | nil =>
      rw [step_slash_end at_rest state]
      exact .inl ⟨_, rfl⟩
    | cons d rest =>
      have split : scan.At tmpl ([92, d] ++ rest) := at_rest
      have next_at : (scan.moved 2 [92, d]).At tmpl rest := split.moved [92, d]
      rw [step_slash at_rest state]
      refine behind_proceeds next_at not_switch ?_
      rw [effort_text next_at state, size]
      simp only [List.length_cons]
      omega
  · simp only [stuck, at_rest.drop, state, List.head?_cons, Bool.and_eq_false_iff,
      decide_eq_false_iff_not] at free
    replace free := free.resolve_left (by simp [slash])
    cases switch : scan.switchHere (c :: rest) with
    | true =>
      rw [if_pos switch] at free
      rw [step_switch at_rest state slash switch]
      have next_at : Scan.At { scan with state := .switch } tmpl (c :: rest) := ⟨at_rest.position, at_rest.count⟩
      refine ⟨⟨_, List.cons_ne_nil c rest, next_at, fun _ => ⟨switch, free⟩⟩, ?_⟩
      simp [effort, state]
    | false =>
      rw [if_neg (by simp [switch])] at free
      cases opens : scan.openHere (c :: rest) with
      | true =>
        rw [step_open at_rest state slash switch opens]
        exact open_proceeds at_rest state opens (by simpa using free)
      | false =>
        have split : scan.At tmpl ([c] ++ rest) := at_rest
        have next_at : (scan.moved 1 ((if scan.escapesHere c rest then [92] else []) ++ [c])).At tmpl rest :=
          split.moved _
        rw [step_plain at_rest state slash switch opens]
        refine behind_proceeds next_at not_switch ?_
        rw [effort_text next_at state, size]
        simp only [List.length_cons]
        omega

theorem tag_proceeds (at_rest : scan.At tmpl (c :: rest)) (state : scan.state = .tag) :
    scan.Proceeds tmpl (scanStep tmpl scan) := by
  have size := effort_tag at_rest state
  cases closed : scan.closeHere (c :: rest) with
  | true =>
    have fits := close_fits closed
    have text_at : Scan.At { scan with state := .text } tmpl
        ((c :: rest).take scan.delimClose.length ++ (c :: rest).drop scan.delimClose.length) := by
      rw [List.take_append_drop]
      exact ⟨at_rest.position, at_rest.count⟩
    have next_at := text_at.moved [125, 125]
    rw [List.length_take, Nat.min_eq_left fits] at next_at
    rw [step_close at_rest state closed]
    refine behind_proceeds next_at (fun is => nomatch is) ?_
    rw [effort_text next_at rfl, size, List.length_drop]
    split_ifs with none
    · omega
    · have := List.length_pos_of_ne_nil none
      omega
  | false =>
    have split : scan.At tmpl ([c] ++ rest) := at_rest
    have next_at : (scan.moved 1 [c]).At tmpl rest := split.moved [c]
    rw [step_tag at_rest state closed]
    refine behind_proceeds next_at (by simp [state]) ?_
    rw [effort_tag next_at state, size, List.length_cons]
    change _ + (if scan.delimClose = [] then 3 else 1) < _
    omega

theorem switched_at (at_rest : scan.At tmpl rest) (fits : scan.delimOpen.length + 1 ≤ rest.length)
    (some_end : switchEnd (scan.switchBody rest) ≠ [])
    (closed : scan.closeHere (switchEnd (scan.switchBody rest)).tail = true) (newClose : Str) :
    (scan.switched (scan.switchBody rest) newClose).At tmpl
      ((switchEnd (scan.switchBody rest)).tail.drop scan.delimClose.length) := by
  have start := close_at at_rest fits
  generalize scan.switchBody rest = body at some_end closed start ⊢
  obtain ⟨c, behind, end_eq⟩ := List.exists_cons_of_ne_nil some_end
  rw [end_eq, List.tail_cons] at closed ⊢
  have fits_close := close_fits closed
  rw [← closeText_append, end_eq] at start
  have behind_at : Rest tmpl (scan.closeStart body + (closeText body).length + 1)
      (behind.take scan.delimClose.length ++ behind.drop scan.delimClose.length) := by
    rw [List.take_append_drop]
    exact start.drop.tail
  have last := behind_at.drop
  rw [List.length_take, Nat.min_eq_left fits_close] at last
  refine ⟨last, ?_⟩
  simp only [switched, end_eq, List.length_cons, List.length_drop]
  omega

theorem At.le (at_rest : scan.At tmpl rest) : scan.p + rest.length = tmpl.length :=
  at_rest.position.le

theorem switch_proceeds (at_rest : scan.At tmpl rest) (state : scan.state = .switch)
    (here : scan.switchHere rest = true) (some_close : scan.noClose rest = false) :
    scan.Proceeds tmpl (scanStep tmpl scan) := by
  have fits := switch_fits here
  unfold scanStep
  rw [state]
  dsimp only [scanSwitch]
  rcases switch_some at_rest (by omega) some_close with ⟨error, thrown⟩ |
    ⟨newClose, n, _, _, _, _, some_end, closed, accepted⟩
  · rw [thrown]
    exact .inr ⟨error, rfl⟩
  · have next_at := switched_at at_rest (by omega) some_end closed newClose
    rw [accepted]
    generalize left_eq : (switchEnd (scan.switchBody rest)).tail.drop scan.delimClose.length = left
      at next_at
    have further : scan.p < (scan.switched (scan.switchBody rest) newClose).p := by
      simp only [switched, closeStart]
      omega
    generalize scan.switched (scan.switchBody rest) newClose = next at next_at further
    have count := next_at.count
    have size := at_rest.le
    have size' := next_at.le
    simp only [bind, Except.bind, pure, Except.pure]
    by_cases more : 0 < next.i
    · rw [if_pos more]
      have text_at : Scan.At { next with state := .text } tmpl left := ⟨next_at.position, next_at.count⟩
      have some_left : left ≠ [] := by
        rintro rfl
        simp only [List.length_nil] at count
        omega
      refine ⟨text_at.inv some_left (fun is => nomatch is), ?_⟩
      rw [effort_text text_at rfl, effort, state, at_rest.count]
      simp only [Int.toNat_natCast]
      omega
    · rw [if_neg more, continues, if_neg (by omega)]
      exact .inl ⟨_, rfl⟩

/-- A step from a place where the scanner is not stuck -/
theorem step_proceeds (inv : scan.Inv tmpl) (free : scan.stuck tmpl = false) :
    scan.Proceeds tmpl (scanStep tmpl scan) := by
  obtain ⟨rest, some_rest, at_rest, switch⟩ := inv.here
  obtain ⟨c, rest, rfl⟩ := List.exists_cons_of_ne_nil some_rest
  cases state : scan.state with
  | text => exact text_proceeds at_rest state free
  | switch => exact switch_proceeds at_rest state (switch state).1 (switch state).2
  | tag => exact tag_proceeds at_rest state

theorem start_inv (some_tmpl : tmpl ≠ []) (delimOpen delimClose : Option Str) :
    (Scan.start tmpl delimOpen delimClose).Inv tmpl :=
  At.inv ⟨⟨[], rfl, rfl⟩, rfl⟩ some_tmpl (fun is => nomatch is)

/-- Where the new close delimiter is missing, the next step copies a negative number of bytes. -/
theorem noClose_ends (at_rest : scan.At tmpl (c :: rest)) (state : scan.state = .text) (other : c ≠ 92)
    (here : scan.switchHere (c :: rest) = true) (none : scan.noClose (c :: rest) = true) :
    ∃ p length, Ends (scanStep tmpl) scan (.error (.copy p length)) := by
  have fits := switch_fits here
  have next_at : Scan.At { scan with state := .switch } tmpl (c :: rest) := ⟨at_rest.position, at_rest.count⟩
  obtain ⟨p, length, copied⟩ := switch_noClose next_at (by simp only; omega) none
  refine ⟨p, length, (Machine.ends_goes (step_switch at_rest state other here)).mpr ?_⟩
  apply Machine.ends_of_step
  unfold scanStep
  dsimp only [scanSwitch]
  rw [copied]
  rfl

/-- The scanner goes to and fro between the text and a tag of no length. -/
structure Loops (scan : Scan) (tmpl : Str) : Prop where
  here : ∃ c rest, scan.At tmpl (c :: rest) ∧ c ≠ 92 ∧ scan.switchHere (c :: rest) = false
  no_open : scan.delimOpen = []
  no_close : scan.delimClose = []
  state : scan.state ≠ .switch

theorem Loops.again (loops : scan.Loops tmpl) :
    ∃ next, scanStep tmpl scan = .goes next ∧ next.Loops tmpl := by
  obtain ⟨c, rest, at_rest, other, no_switch⟩ := loops.here
  have split : scan.At tmpl ([] ++ c :: rest) := at_rest
  cases state : scan.state with
  | switch => exact absurd state loops.state
  | text =>
    have opens : scan.openHere (c :: rest) = true := by
      simp [openHere, loops.no_open, loops.no_close, startsWith]
    have turn := step_open at_rest state other no_switch opens
    have next_at := split.moved [123, 123]
    have length : scan.delimOpen.length = 0 := by rw [loops.no_open, List.length_nil]
    rw [length] at turn
    exact ⟨_, turn, ⟨c, rest, ⟨next_at.position, next_at.count⟩, other, no_switch⟩, loops.no_open,
      loops.no_close, fun is => by cases is⟩
  | tag =>
    have closes : scan.closeHere (c :: rest) = true := by
      simp [closeHere, loops.no_close, startsWith]
    have turn := step_close at_rest state closes
    have next_at := split.moved [125, 125]
    have length : scan.delimClose.length = 0 := by rw [loops.no_close, List.length_nil]
    rw [length, List.drop_zero, behind, if_neg (by simp)] at turn
    exact ⟨_, turn, ⟨c, rest, ⟨next_at.position, next_at.count⟩, other, no_switch⟩, loops.no_open,
      loops.no_close, fun is => by cases is⟩

/-- A run that comes to a place where it is stuck comes to a first one. -/
theorem first_stuck (reaches : Reaches (scanStep tmpl) scan last) (inv : scan.Inv tmpl)
    (caught : last.stuck tmpl = true) :
    ∃ first, Reaches (scanStep tmpl) scan first ∧ first.Inv tmpl ∧ first.stuck tmpl = true := by
  induction reaches with
  | refl state => exact ⟨state, .refl state, inv, caught⟩
  | @step state next last turn _ ih =>
    cases free : state.stuck tmpl with
    | true => exact ⟨state, .refl state, inv, free⟩
    | false =>
      have proceeds := step_proceeds inv free
      rw [turn] at proceeds
      obtain ⟨first, reaches, holds, is_stuck⟩ := ih proceeds.1 caught
      exact ⟨first, .step turn reaches, holds, is_stuck⟩

/-- From there it does not end well. -/
theorem stuck_ends (inv : scan.Inv tmpl) (caught : scan.stuck tmpl = true)
    (ends : Ends (scanStep tmpl) scan result) : ∃ p length, result = .error (.copy p length) := by
  obtain ⟨rest, some_rest, at_rest, -⟩ := inv.here
  obtain ⟨c, rest, rfl⟩ := List.exists_cons_of_ne_nil some_rest
  simp only [stuck, at_rest.drop, List.head?_cons, Bool.and_eq_true, decide_eq_true_eq] at caught
  obtain ⟨⟨state, other⟩, caught⟩ := caught
  replace other : c ≠ 92 := fun same => other (congrArg some same)
  split_ifs at caught with switch
  · obtain ⟨p, length, copied⟩ := noClose_ends at_rest state other switch caught
    exact ⟨p, length, ends.unique copied⟩
  · obtain ⟨no_open, no_close⟩ := of_decide_eq_true caught
    have loops : scan.Loops tmpl := ⟨⟨c, rest, at_rest, other, by simpa using switch⟩, no_open, no_close,
      by simp [state]⟩
    exact absurd ends (Machine.not_ends (Loops · tmpl) (fun _ loops => loops.again) loops)

/-- What holds of the scanner at each of its labels in any run -/
structure Placed (scan : Scan) (tmpl : Str) : Prop where
  here : ∃ rest, rest ≠ [] ∧ scan.At tmpl rest ∧ (scan.state = .switch → scan.switchHere rest = true)

theorem Inv.placed (inv : scan.Inv tmpl) : scan.Placed tmpl := by
  obtain ⟨rest, some_rest, at_rest, switch⟩ := inv.here
  exact ⟨rest, some_rest, at_rest, fun state => (switch state).1⟩

theorem stuck_goes (inv : scan.Inv tmpl) (caught : scan.stuck tmpl = true)
    (turn : scanStep tmpl scan = .goes next) : next.Placed tmpl := by
  obtain ⟨rest, some_rest, at_rest, -⟩ := inv.here
  obtain ⟨c, rest, rfl⟩ := List.exists_cons_of_ne_nil some_rest
  simp only [stuck, at_rest.drop, List.head?_cons, Bool.and_eq_true, decide_eq_true_eq] at caught
  obtain ⟨⟨state, other⟩, caught⟩ := caught
  replace other : c ≠ 92 := fun same => other (congrArg some same)
  split_ifs at caught with switch
  · rw [step_switch at_rest state other switch] at turn
    cases turn
    exact ⟨_, some_rest, ⟨at_rest.position, at_rest.count⟩, fun _ => switch⟩
  · obtain ⟨no_open, no_close⟩ := of_decide_eq_true caught
    have loops : scan.Loops tmpl := ⟨⟨c, rest, at_rest, other, by simpa using switch⟩, no_open, no_close,
      by simp [state]⟩
    obtain ⟨again, same, loops⟩ := loops.again
    obtain ⟨c, rest, at_rest, -, -⟩ := loops.here
    cases same.symm.trans turn
    exact ⟨_, List.cons_ne_nil c rest, at_rest, fun is => absurd is loops.state⟩

theorem Placed.goes (placed : scan.Placed tmpl) (turn : scanStep tmpl scan = .goes next) :
    next.Placed tmpl := by
  obtain ⟨rest, some_rest, at_rest, switch⟩ := placed.here
  by_cases lost : scan.state = .switch ∧ scan.noClose rest = true
  · obtain ⟨state, none⟩ := lost
    have fits := switch_fits (switch state)
    obtain ⟨p, length, copied⟩ := switch_noClose at_rest (by omega) none
    unfold scanStep at turn
    rw [state] at turn
    dsimp only [scanSwitch] at turn
    rw [copied] at turn
    cases turn
  · have inv : scan.Inv tmpl := ⟨rest, some_rest, at_rest, fun state =>
      ⟨switch state, by simpa [state] using lost⟩⟩
    cases caught : scan.stuck tmpl with
    | true => exact stuck_goes inv caught turn
    | false =>
      have proceeds := step_proceeds inv caught
      rw [turn] at proceeds
      exact proceeds.1.placed

theorem visited (visits : Visits tmpl givenOpen givenClose scan) : scan.Placed tmpl :=
  visits.2.invariant (fun scan => scan.Placed tmpl) (fun _ _ placed turn => placed.goes turn)
    (start_inv visits.1 givenOpen givenClose).placed

end Scan

/-- The preprocessor returns or throws, and keeps to the template, exactly where its run does not
come to a place where it is stuck. -/
theorem preprocess_ends_iff (tmpl : Str) (delimOpen delimClose : Option Str) :
    EndsWell tmpl delimOpen delimClose ↔
      ∀ scan, Visits tmpl delimOpen delimClose scan → scan.stuck tmpl = false := by
  constructor
  · intro well scan visits
    by_contra caught
    rw [Bool.not_eq_false] at caught
    obtain ⟨some_tmpl, reaches⟩ := visits
    obtain ⟨result, ends, fine⟩ := well.ends
    rw [Preprocesses, if_neg some_tmpl] at ends
    obtain ⟨first, reaches, inv, caught⟩ :=
      Scan.first_stuck reaches (Scan.start_inv some_tmpl delimOpen delimClose) caught
    obtain ⟨p, length, rfl⟩ := Scan.stuck_ends inv caught (reaches.ends_iff.mp ends)
    rcases fine with ⟨_, same⟩ | ⟨_, same⟩ <;> cases same
  · intro free
    by_cases none : tmpl = []
    · exact ⟨⟨.ok [], by rw [Preprocesses, if_pos none], .inl ⟨[], rfl⟩⟩, fun _ _ visits => absurd none visits.1⟩
    have start := Scan.start_inv none delimOpen delimClose
    have keep : ∀ state next, state.Inv tmpl ∧ Visits tmpl delimOpen delimClose state →
        scanStep tmpl state = .goes next →
        (next.Inv tmpl ∧ Visits tmpl delimOpen delimClose next) ∧ next.effort < state.effort := by
      intro state next ⟨inv, visits⟩ turn
      have proceeds := Scan.step_proceeds inv (free state visits)
      rw [turn] at proceeds
      exact ⟨⟨proceeds.1, none, visits.2.trans (.step turn (.refl next))⟩, proceeds.2⟩
    have all (scan : Scan) (visits : Visits tmpl delimOpen delimClose scan) : scan.Inv tmpl :=
      (visits.2.invariant (fun scan => scan.Inv tmpl ∧ Visits tmpl delimOpen delimClose scan)
        (fun state next inv turn => (keep state next inv turn).1) ⟨start, none, .refl _⟩).1
    constructor
    · obtain ⟨last, result, reaches, ⟨inv, visits⟩, ended⟩ :=
        Machine.ends_of_measure Scan.effort _ keep ⟨start, none, .refl _⟩
      have proceeds := Scan.step_proceeds inv (free last visits)
      rw [ended] at proceeds
      refine ⟨result, ?_, proceeds⟩
      rw [Preprocesses, if_neg none]
      exact reaches.ends_iff.mpr (Machine.ends_of_step ended)
    · intro scan next visits state accepted
      obtain ⟨rest, _, at_rest, switch⟩ := (all scan visits).here
      obtain ⟨here, some_close⟩ := switch state
      have fits := Scan.switch_fits here
      rcases Scan.switch_some at_rest (by omega) some_close with ⟨error, thrown⟩ |
        ⟨newClose, n, some_new, _, _, some_space, _, _, switched⟩
      · rw [thrown] at accepted
        cases accepted
      · obtain rfl := Except.ok.inj (switched.symm.trans accepted)
        obtain ⟨front, c, open_eq, _⟩ := Scan.newOpen_last some_space
        refine ⟨?_, some_new⟩
        change Scan.newOpen _ ≠ []
        rw [open_eq]
        simp

/-- A switch without a close delimiter copies minus one byte, and with two empty delimiters the first
letter of a template keeps the scanner for ever. -/
theorem preprocess_not_ends : ¬EndsWell (bytes "\x7b\x7b=<% =\x7d\x7d") none none ∧
    ¬EndsWell (bytes "a") (some []) (some []) := by
  constructor
  · intro well
    obtain ⟨result, ends, fine⟩ := well.ends
    have some_tmpl : bytes "\x7b\x7b=<% =\x7d\x7d" ≠ [] := by decide
    rw [Preprocesses, if_neg some_tmpl] at ends
    have copies : Ends (scanStep (bytes "\x7b\x7b=<% =\x7d\x7d"))
        (.start (bytes "\x7b\x7b=<% =\x7d\x7d") none none) (.error (.copy 6 (-1))) :=
      ⟨2, by decide⟩
    obtain rfl := ends.unique copies
    rcases fine with ⟨_, same⟩ | ⟨_, same⟩ <;> cases same
  · intro well
    obtain ⟨result, ends, _⟩ := well.ends
    have some_tmpl : bytes "a" ≠ [] := by decide
    rw [Preprocesses, if_neg some_tmpl] at ends
    have loops : Scan.Loops (.start (bytes "a") (some []) (some [])) (bytes "a") :=
      ⟨⟨97, [], ⟨⟨[], rfl, rfl⟩, rfl⟩, by decide, rfl⟩, rfl, rfl, fun is => by cases is⟩
    exact Machine.not_ends (Scan.Loops · (bytes "a")) (fun _ loops => loops.again) loops ends

end HandlebarsC.Parser
