import HandlebarsC.Foundation.Machine
import HandlebarsC.Parser.Slashes

/-!
The preprocessor for delimiters: a scanner that copies a template, and turns its tags into
ones with braces. Its `goto` are steps. Where it reads or copies outside of the template, or
copies a negative number of bytes, it stops.
-/

namespace HandlebarsC.Parser

open Machine (Turn)

/-- The variable `state` of `handlebars_preprocess_delimiters`. -/
inductive ScanState where
  | text
  | switch
  | tag
  deriving DecidableEq, Repr

/-- The variables of `handlebars_preprocess_delimiters`. -/
structure Scan where
  i : Int
  p : Nat
  state : ScanState
  delimOpen : Str
  delimClose : Str
  startsWithBracket : Bool
  newTmpl : Str
  deriving DecidableEq, Repr

/-- What keeps the scanner from going on. -/
inductive Stop where
  | thrown (error : Error)
  | read (p : Int)
  | copy (p : Int) (length : Int)
  deriving DecidableEq

/-- `(size_t) i` -/
def sizeT (i : Int) : Int := if 0 ≤ i then i else i + 2 ^ 64

def throwing (message : Str) : Except Stop α := .error (.thrown ⟨.error, message, .zero⟩)

/-- `*p`: a byte of the template, or its terminator. -/
def byteAt (tmpl : Str) (p : Nat) : Except Stop UInt8 :=
  if p < tmpl.length then .ok (tmpl.getD p 0)
  else if p = tmpl.length then .ok 0
  else .error (.read p)

/-- `strncmp(p, text, length) == 0` -/
def sameText (tmpl : Str) : Nat → Str → Except Stop Bool
  | _, [] => .ok true
  | p, char :: text =>
    (byteAt tmpl p).bind fun byte =>
      if byte ≠ char then .ok false
      else if byte = 0 then .ok true
      else sameText tmpl (p + 1) text

/-- `handlebars_string_ctor(ctx, p, length)` -/
def copyText (tmpl : Str) (p : Nat) (length : Int) : Except Stop Str :=
  if 0 ≤ length ∧ p + length ≤ tmpl.length then .ok ((tmpl.drop p).take length.toNat)
  else .error (.copy p length)

namespace Scan

def append (scan : Scan) (text : Str) : Scan := { scan with newTmpl := scan.newTmpl ++ text }

/-- `move_forward` -/
def moveForward (scan : Scan) (x : Nat) : Except Stop Scan :=
  if scan.i < x then throwing (bytes "Failed to advanced scanner by " ++ formatLong x)
  else .ok { scan with p := scan.p + x, i := scan.i - x }

/-- The end of the body of the loop, and its test -/
def continues (scan : Scan) : Turn Scan Str :=
  if 0 < scan.i - 1 then .goes { scan with i := scan.i - 1, p := scan.p + 1 } else .ends scan.newTmpl

/-- Whether the open delimiter and an equals sign are next. -/
def atSwitch (scan : Scan) (tmpl : Str) : Except Stop Bool :=
  if scan.delimOpen.length + scan.delimClose.length + 4 ≤ sizeT scan.i then
    (sameText tmpl scan.p scan.delimOpen).bind fun same =>
      if same then (byteAt tmpl (scan.p + scan.delimOpen.length)).map (· == 61) else .ok false
  else .ok false

def atOpen (scan : Scan) (tmpl : Str) : Except Stop Bool :=
  if scan.delimOpen.length + scan.delimClose.length + 1 ≤ sizeT scan.i then
    sameText tmpl scan.p scan.delimOpen
  else .ok false

def atClose (scan : Scan) (tmpl : Str) : Except Stop Bool :=
  if scan.delimClose.length ≤ sizeT scan.i then sameText tmpl scan.p scan.delimClose else .ok false

/-- Whether a bracket that is text is escaped. -/
def escapes (scan : Scan) (tmpl : Str) (char : UInt8) : Except Stop Bool :=
  if 2 ≤ scan.i ∧ char = 123 then
    (byteAt tmpl (scan.p + 1)).map fun next => next == 123 && !scan.startsWithBracket
  else .ok false

end Scan

/-- A loop that looks for a byte: how many are left there, and where it is. -/
def scanFor (tmpl : Str) (found : UInt8 → Bool) : Nat → Nat → Except Stop (Nat × Nat)
  | 0, p => .ok (0, p)
  | i + 1, p =>
    (byteAt tmpl p).bind fun byte => if found byte then .ok (i + 1, p) else scanFor tmpl found i (p + 1)

/-- The loop that goes back over spaces: the position behind the last other byte. -/
def scanBack (tmpl : Str) : Nat → Except Stop Nat
  | 0 => .error (.read (-1))
  | pce + 1 => (byteAt tmpl pce).bind fun byte => if byte = 32 then scanBack tmpl pce else .ok (pce + 1)

/-- The tag for a delimiter switch -/
def switchTag (delimOpen delimClose : Str) : Str :=
  bytes "\x7b\x7bhbsc_set_delimiters \"" ++ addcslashes delimOpen (bytes "\"") ++ bytes "\" \"" ++
    addcslashes delimClose (bytes "\"") ++ bytes "\"\x7d\x7d"

/-- State 1 from the second equals sign to the tag that it appends -/
def Scan.endSwitch (scan : Scan) (tmpl newOpen newClose : Str) : Except Stop Scan := do
  let scan ← scan.moveForward 1
  if !(← scan.atClose tmpl) then throwing (bytes "Delimiter change must end with an equals")
  let scan ← scan.moveForward scan.delimClose.length
  return { scan with
    delimOpen := newOpen
    delimClose := newClose
    startsWithBracket := newOpen.head? = some 123 }.append (switchTag newOpen newClose)

/-- State 1, up to the tag that it appends -/
def switchDelimiters (tmpl : Str) (scan : Scan) : Except Stop Scan := do
  let scan ← scan.moveForward (scan.delimOpen.length + 1)
  let (i, po) ← scanFor tmpl (· != 32) scan.i.toNat scan.p
  let (i, p) ← scanFor tmpl (· == 32) i po
  if i = 0 then throwing (bytes "Delimiter change must contain a space")
  let newOpen ← copyText tmpl po (p - po)
  let (i, pc) ← scanFor tmpl (· != 32) i p
  let (i, p) ← scanFor tmpl (· == 61) i pc
  if i = 0 then throwing (bytes "Delimiter change must contain two equals")
  let pce ← scanBack tmpl p
  let newClose ← copyText tmpl pc (pce - pc)
  { scan with i := i, p := p }.endSwitch tmpl newOpen newClose

/-- State 0 -/
def scanText (tmpl : Str) (scan : Scan) : Except Stop (Turn Scan Str) := do
  let char ← byteAt tmpl scan.p
  if char = 92 then
    let scan ← (scan.append [char]).moveForward 1
    let next ← byteAt tmpl scan.p
    return (scan.append [next]).continues
  if ← scan.atSwitch tmpl then return .goes { scan with state := .switch }
  if ← scan.atOpen tmpl then
    let scan ← (scan.append (bytes "\x7b\x7b")).moveForward scan.delimOpen.length
    return .goes { scan with state := .tag }
  let escaped ← scan.escapes tmpl char
  return ((if escaped then scan.append [92] else scan).append [char]).continues

/-- State 1 -/
def scanSwitch (tmpl : Str) (scan : Scan) : Except Stop (Turn Scan Str) := do
  let scan ← switchDelimiters tmpl scan
  return if 0 < scan.i then .goes { scan with state := .text } else scan.continues

/-- State 2 -/
def scanTag (tmpl : Str) (scan : Scan) : Except Stop (Turn Scan Str) := do
  if ← scan.atClose tmpl then
    let scan ← (scan.append (bytes "\x7d\x7d")).moveForward scan.delimClose.length
    return if 0 < scan.i then .goes { scan with state := .text } else scan.continues
  let char ← byteAt tmpl scan.p
  return (scan.append [char]).continues

/-- A step that stops ends the run. -/
def settle : Except Stop (Turn Scan Str) → Turn Scan (Except Stop Str)
  | .ok (.goes next) => .goes next
  | .ok (.ends text) => .ends (.ok text)
  | .error stop => .ends (.error stop)

/-- One pass through the body of the loop, from a label to a `goto` or the end. -/
def scanStep (tmpl : Str) (scan : Scan) : Turn Scan (Except Stop Str) :=
  settle (match scan.state with
    | .text => scanText tmpl scan
    | .switch => scanSwitch tmpl scan
    | .tag => scanTag tmpl scan)

def Scan.start (tmpl : Str) (delimOpen delimClose : Option Str) : Scan where
  i := tmpl.length
  p := 0
  state := .text
  delimOpen := delimOpen.getD (bytes "\x7b\x7b")
  delimClose := delimClose.getD (bytes "\x7d\x7d")
  startsWithBracket := (delimOpen.map fun text => decide (text.head? = some 123)).getD false
  newTmpl := []

/-- `handlebars_preprocess_delimiters` ends with a result: the text, or what stops it. -/
def Preprocesses (tmpl : Str) (delimOpen delimClose : Option Str) (result : Except Stop Str) : Prop :=
  if tmpl = [] then result = .ok []
  else Machine.Ends (scanStep tmpl) (.start tmpl delimOpen delimClose) result

/-- What is left of a template at a position -/
def Rest (tmpl : Str) (p : Nat) (rest : Str) : Prop :=
  ∃ before, tmpl = before ++ rest ∧ before.length = p

/-- The scanner is at a position of the template, and counts what is left. -/
structure Scan.At (scan : Scan) (tmpl rest : Str) : Prop where
  position : Rest tmpl scan.p rest
  count : scan.i = rest.length

/-- What `strncmp` compares: up to a NUL byte that both have. -/
def startsWith : Str → Str → Bool
  | [], _ => true
  | _ :: _, [] => false
  | char :: text, byte :: rest => byte == char && (byte == 0 || startsWith text rest)

section Reads

variable {tmpl rest : Str} {p : Nat}

theorem Rest.le (at_rest : Rest tmpl p rest) : p + rest.length = tmpl.length := by
  obtain ⟨before, rfl, rfl⟩ := at_rest
  simp

theorem Rest.drop (front : Str) (at_rest : Rest tmpl p (front ++ rest)) : Rest tmpl (p + front.length) rest := by
  obtain ⟨before, rfl, rfl⟩ := at_rest
  exact ⟨before ++ front, by simp, by simp⟩

theorem Rest.tail (at_rest : Rest tmpl p (c :: rest)) : Rest tmpl (p + 1) rest :=
  Rest.drop [c] at_rest

theorem Rest.byteAt (at_rest : Rest tmpl p (c :: rest)) : byteAt tmpl p = .ok c := by
  obtain ⟨before, rfl, rfl⟩ := at_rest
  simp [HandlebarsC.Parser.byteAt, List.getD]

theorem Rest.terminator (at_rest : Rest tmpl p []) : HandlebarsC.Parser.byteAt tmpl p = .ok 0 := by
  obtain ⟨before, rfl, rfl⟩ := at_rest
  simp [HandlebarsC.Parser.byteAt]

theorem Rest.sameText (at_rest : Rest tmpl p rest) (fits : text.length ≤ rest.length) :
    sameText tmpl p text = .ok (startsWith text rest) := by
  induction text generalizing p rest with
  | nil => rfl
  | cons char text ih =>
    cases rest with
    | nil => simp at fits
    | cons byte rest =>
      simp only [List.length_cons, Nat.add_le_add_iff_right] at fits
      rw [HandlebarsC.Parser.sameText, at_rest.byteAt, Except.bind, startsWith, ih at_rest.tail fits]
      by_cases same : byte = char
      · by_cases nul : char = 0 <;> simp [same, nul]
      · simp [same]

theorem Rest.copyText (at_rest : Rest tmpl p (front ++ rest)) :
    copyText tmpl p front.length = .ok front := by
  obtain ⟨before, rfl, rfl⟩ := at_rest
  have fits : (before.length : Int) + front.length ≤ (before ++ (front ++ rest)).length := by
    simp only [List.length_append]
    omega
  rw [HandlebarsC.Parser.copyText, if_pos ⟨by omega, fits⟩]
  simp

/-- A loop that looks for a byte stops at the first one, or at the end. -/
theorem Rest.scanFor (at_rest : Rest tmpl p rest) (found : UInt8 → Bool) :
    scanFor tmpl found rest.length p =
      .ok ((rest.dropWhile (!found ·)).length, p + (rest.takeWhile (!found ·)).length) := by
  induction rest generalizing p with
  | nil => rfl
  | cons c rest ih =>
    rw [List.length_cons, HandlebarsC.Parser.scanFor, at_rest.byteAt, Except.bind]
    cases test : found c with
    | true => simp [test]
    | false =>
      rw [ih at_rest.tail]
      simp only [Bool.false_eq_true, if_false, List.dropWhile_cons, List.takeWhile_cons, test,
        Bool.not_false, if_true, List.length_cons]
      congr 2
      omega

theorem Rest.past (at_rest : Rest tmpl p rest) (test : UInt8 → Bool) :
    Rest tmpl (p + (rest.takeWhile test).length) (rest.dropWhile test) := by
  apply Rest.drop
  rwa [List.takeWhile_append_dropWhile]

/-- Going back over spaces ends behind the last byte that is none. -/
theorem scanBack_spaces (at_rest : Rest tmpl p (c :: rest)) (other : c ≠ 32) (spaces : ∃ behind,
    rest = List.replicate n 32 ++ behind) : scanBack tmpl (p + 1 + n) = .ok (p + 1) := by
  obtain ⟨behind, rfl⟩ := spaces
  induction n generalizing behind with
  | zero => rw [Nat.add_zero, scanBack, at_rest.byteAt, Except.bind, if_neg other]
  | succ n ih =>
    have here : Rest tmpl (p + 1 + n) (32 :: behind) := by
      have split : Rest tmpl p ((c :: List.replicate n 32) ++ (32 :: behind)) := by
        simpa [List.replicate_succ'] using at_rest
      have dropped := split.drop
      rwa [List.length_cons, List.length_replicate, Nat.add_comm n, ← Nat.add_assoc] at dropped
    rw [← Nat.add_assoc, scanBack, here.byteAt, Except.bind, if_pos rfl]
    exact ih (32 :: behind) (by simpa [List.replicate_succ'] using at_rest)

end Reads

namespace Scan

/-- The scanner some bytes further on, with more text -/
def moved (scan : Scan) (n : Nat) (text : Str) : Scan :=
  { scan with p := scan.p + n, i := scan.i - n, newTmpl := scan.newTmpl ++ text }

def switchHere (scan : Scan) (rest : Str) : Bool :=
  decide (scan.delimOpen.length + scan.delimClose.length + 4 ≤ rest.length) &&
    (startsWith scan.delimOpen rest && decide ((rest.drop scan.delimOpen.length).head? = some 61))

def openHere (scan : Scan) (rest : Str) : Bool :=
  decide (scan.delimOpen.length + scan.delimClose.length + 1 ≤ rest.length) && startsWith scan.delimOpen rest

def closeHere (scan : Scan) (rest : Str) : Bool :=
  decide (scan.delimClose.length ≤ rest.length) && startsWith scan.delimClose rest

def escapesHere (scan : Scan) (char : UInt8) (rest : Str) : Bool :=
  decide (char = 123 ∧ rest.head? = some 123) && !scan.startsWithBracket

variable {scan : Scan} {tmpl rest : Str}

theorem At.moved (at_rest : scan.At tmpl (front ++ rest)) (text : Str) :
    (scan.moved front.length text).At tmpl rest := by
  refine ⟨at_rest.position.drop front, ?_⟩
  have count := at_rest.count
  rw [List.length_append] at count
  simp only [Scan.moved]
  omega

theorem At.sizeT (at_rest : scan.At tmpl rest) : sizeT scan.i = rest.length := by
  rw [at_rest.count, HandlebarsC.Parser.sizeT, if_pos (Int.natCast_nonneg _)]

theorem At.atOpen (at_rest : scan.At tmpl rest) : scan.atOpen tmpl = .ok (scan.openHere rest) := by
  unfold Scan.atOpen openHere
  rw [at_rest.sizeT]
  by_cases fits : scan.delimOpen.length + scan.delimClose.length + 1 ≤ rest.length
  · have fits' : (scan.delimOpen.length : Int) + scan.delimClose.length + 1 ≤ rest.length := by omega
    rw [if_pos fits', at_rest.position.sameText (by omega)]
    simp [fits]
  · rw [if_neg (by omega)]
    simp [fits]

theorem At.atClose (at_rest : scan.At tmpl rest) : scan.atClose tmpl = .ok (scan.closeHere rest) := by
  unfold Scan.atClose closeHere
  rw [at_rest.sizeT]
  by_cases fits : scan.delimClose.length ≤ rest.length
  · rw [if_pos (by omega), at_rest.position.sameText fits]
    simp [fits]
  · rw [if_neg (by omega)]
    simp [fits]

theorem At.atSwitch (at_rest : scan.At tmpl rest) : scan.atSwitch tmpl = .ok (scan.switchHere rest) := by
  unfold Scan.atSwitch switchHere
  rw [at_rest.sizeT]
  by_cases fits : scan.delimOpen.length + scan.delimClose.length + 4 ≤ rest.length
  · have fits' : (scan.delimOpen.length : Int) + scan.delimClose.length + 4 ≤ rest.length := by omega
    rw [if_pos fits', at_rest.position.sameText (by omega), Except.bind]
    cases same : startsWith scan.delimOpen rest with
    | false => simp
    | true =>
      obtain ⟨c, behind, split⟩ : ∃ c behind, rest.drop scan.delimOpen.length = c :: behind := by
        cases left : rest.drop scan.delimOpen.length with
        | nil =>
          have := congrArg List.length left
          simp at this
          omega
        | cons c behind => exact ⟨c, behind, rfl⟩
      have whole : Rest tmpl scan.p (rest.take scan.delimOpen.length ++ c :: behind) := by
        rw [← split, List.take_append_drop]
        exact at_rest.position
      have byte := whole.drop.byteAt
      rw [List.length_take, Nat.min_eq_left (by omega)] at byte
      simp only [if_true, byte, Except.map, split, fits, decide_true, Bool.true_and, List.head?_cons,
        Option.some.injEq]
      rfl
  · rw [if_neg (by omega)]
    simp [fits]

theorem At.escapes (at_rest : scan.At tmpl (c :: rest)) :
    scan.escapes tmpl c = .ok (scan.escapesHere c rest) := by
  unfold Scan.escapes escapesHere
  have count := at_rest.count
  rw [List.length_cons] at count
  by_cases brace : c = 123
  · cases rest with
    | nil =>
      simp only [List.length_nil] at count
      rw [if_neg (by omega)]
      simp
    | cons d rest =>
      simp only [List.length_cons] at count
      rw [if_pos ⟨by omega, brace⟩, at_rest.position.tail.byteAt]
      simp [Except.map, brace]
      rfl
  · rw [if_neg (fun both => brace both.2)]
    simp [brace]

theorem moveForward_le (scan : Scan) (x : Nat) (fits : (x : Int) ≤ scan.i) :
    scan.moveForward x = .ok { scan with p := scan.p + x, i := scan.i - x } :=
  if_neg (by omega)

theorem append_moveForward (scan : Scan) (x : Nat) (text : Str) (fits : (x : Int) ≤ scan.i) :
    (scan.append text).moveForward x = .ok (scan.moved x text) := by
  have fits : ¬(scan.append text).i < x := by
    simp only [Scan.append]
    omega
  exact if_neg fits

/-- The turn behind bytes that a step has copied -/
def behind (scan : Scan) (n : Nat) (text rest : Str) : Turn Scan (Except Stop Str) :=
  if rest = [] then .ends (.ok (scan.newTmpl ++ text)) else .goes (scan.moved n text)

theorem At.continues (at_rest : scan.At tmpl (c :: rest)) (text : Str) :
    settle (.ok (scan.append text).continues) = scan.behind 1 text rest := by
  have count := at_rest.count
  rw [List.length_cons] at count
  unfold Scan.continues behind
  cases rest with
  | nil =>
    have last : ¬0 < (scan.append text).i - 1 := by
      simp only [List.length_nil, Scan.append] at count ⊢
      omega
    rw [if_neg last, if_pos rfl]
    rfl
  | cons d rest =>
    have more : 0 < (scan.append text).i - 1 := by
      simp only [List.length_cons, Scan.append] at count ⊢
      omega
    rw [if_pos more, if_neg (by simp)]
    rfl

theorem behind_moved (scan : Scan) (n m : Nat) (text more rest : Str) :
    (scan.moved n text).behind m more rest = scan.behind (n + m) (text ++ more) rest := by
  unfold behind Scan.moved
  simp only [List.append_assoc, Nat.add_assoc, Int.natCast_add]
  split_ifs
  · rfl
  · congr 2
    omega

theorem step_slash_end (at_rest : scan.At tmpl [92]) (state : scan.state = .text) :
    scanStep tmpl scan = .ends (.ok (scan.newTmpl ++ [92, 0])) := by
  have count := at_rest.count
  simp only [List.length_singleton] at count
  have last : byteAt tmpl (scan.moved 1 [92]).p = .ok 0 := at_rest.position.tail.terminator
  unfold scanStep
  rw [state]
  simp only [scanText, at_rest.position.byteAt, bind, Except.bind, if_true, pure, Except.pure,
    append_moveForward scan 1 [92] (by omega), last]
  have done : ¬0 < ((scan.moved 1 [92]).append [0]).i - 1 := by
    simp only [Scan.append, Scan.moved]
    omega
  rw [Scan.continues, if_neg done]
  simp [settle, Scan.append, Scan.moved]

theorem step_slash (at_rest : scan.At tmpl (92 :: c :: rest)) (state : scan.state = .text) :
    scanStep tmpl scan = scan.behind 2 [92, c] rest := by
  have count := at_rest.count
  simp only [List.length_cons] at count
  have split : scan.At tmpl ([92] ++ c :: rest) := at_rest
  have next_at : (scan.moved 1 [92]).At tmpl (c :: rest) := split.moved [92]
  unfold scanStep
  rw [state]
  simp only [scanText, at_rest.position.byteAt, bind, Except.bind, if_true, pure, Except.pure,
    append_moveForward scan 1 [92] (by omega), next_at.position.byteAt]
  rw [next_at.continues, behind_moved]
  rfl

theorem step_switch (at_rest : scan.At tmpl (c :: rest)) (state : scan.state = .text) (other : c ≠ 92)
    (here : scan.switchHere (c :: rest) = true) :
    scanStep tmpl scan = .goes { scan with state := .switch } := by
  unfold scanStep
  rw [state]
  simp only [scanText, at_rest.position.byteAt, bind, Except.bind, if_neg other, at_rest.atSwitch,
    here, if_true, pure, Except.pure, settle]

theorem step_open (at_rest : scan.At tmpl (c :: rest)) (state : scan.state = .text) (other : c ≠ 92)
    (no_switch : scan.switchHere (c :: rest) = false) (here : scan.openHere (c :: rest) = true) :
    scanStep tmpl scan =
      .goes { scan.moved scan.delimOpen.length [123, 123] with state := .tag } := by
  have count := at_rest.count
  have fits : scan.delimOpen.length + scan.delimClose.length + 1 ≤ (c :: rest).length := by
    simp only [openHere, Bool.and_eq_true, decide_eq_true_eq] at here
    exact here.1
  unfold scanStep
  rw [state]
  simp only [scanText, at_rest.position.byteAt, bind, Except.bind, if_neg other, at_rest.atSwitch,
    no_switch, Bool.false_eq_true, if_false, at_rest.atOpen, here, if_true, pure, Except.pure, bytes_open,
    append_moveForward scan scan.delimOpen.length [123, 123] (by omega), settle]

theorem step_plain (at_rest : scan.At tmpl (c :: rest)) (state : scan.state = .text) (other : c ≠ 92)
    (no_switch : scan.switchHere (c :: rest) = false) (no_open : scan.openHere (c :: rest) = false) :
    scanStep tmpl scan =
      scan.behind 1 ((if scan.escapesHere c rest then [92] else []) ++ [c]) rest := by
  unfold scanStep
  rw [state]
  simp only [scanText, at_rest.position.byteAt, bind, Except.bind, if_neg other, at_rest.atSwitch,
    no_switch, Bool.false_eq_true, if_false, at_rest.atOpen, no_open, at_rest.escapes, pure, Except.pure]
  rw [← at_rest.continues]
  split_ifs <;> simp [Scan.append]

theorem step_close (at_rest : scan.At tmpl rest) (state : scan.state = .tag)
    (here : scan.closeHere rest = true) :
    scanStep tmpl scan = { scan with state := .text }.behind scan.delimClose.length [125, 125]
      (rest.drop scan.delimClose.length) := by
  have fits : scan.delimClose.length ≤ rest.length := by
    simp only [closeHere, Bool.and_eq_true, decide_eq_true_eq] at here
    exact here.1
  have count := at_rest.count
  unfold scanStep
  rw [state]
  simp only [scanTag, at_rest.atClose, bind, Except.bind, here, if_true, pure, Except.pure, bytes_close,
    append_moveForward scan scan.delimClose.length [125, 125] (by omega)]
  have left : (scan.moved scan.delimClose.length [125, 125]).i =
      (rest.drop scan.delimClose.length).length := by
    simp only [Scan.moved, List.length_drop]
    omega
  unfold behind
  by_cases done : rest.drop scan.delimClose.length = []
  · rw [done, List.length_nil] at left
    rw [if_pos done, if_neg (by omega), Scan.continues, if_neg (by omega)]
    rfl
  · have positive := List.length_pos_of_ne_nil done
    rw [if_neg done, if_pos (by omega)]
    rfl

theorem step_tag (at_rest : scan.At tmpl (c :: rest)) (state : scan.state = .tag)
    (no_close : scan.closeHere (c :: rest) = false) :
    scanStep tmpl scan = scan.behind 1 [c] rest := by
  unfold scanStep
  rw [state]
  simp only [scanTag, at_rest.position.byteAt, bind, Except.bind, at_rest.atClose, no_close,
    Bool.false_eq_true, if_false, pure, Except.pure]
  exact at_rest.continues [c]

/-- What follows the open delimiter and the equals sign of a switch -/
def switchBody (scan : Scan) (rest : Str) : Str := rest.drop (scan.delimOpen.length + 1)

/-- What follows the spaces of a switch -/
def switchOpen (body : Str) : Str := body.dropWhile (!· != 32)

def switchSpace (body : Str) : Str := (switchOpen body).dropWhile (!· == 32)

def switchClose (body : Str) : Str := (switchSpace body).dropWhile (!· != 32)

def switchEnd (body : Str) : Str := (switchClose body).dropWhile (!· == 61)

/-- The new open delimiter -/
def newOpen (body : Str) : Str := (switchOpen body).takeWhile (!· == 32)

/-- The bytes in front of the second equals sign: the new close delimiter and spaces -/
def closeText (body : Str) : Str := (switchClose body).takeWhile (!· == 61)

/-- Where the new close delimiter starts -/
def closeStart (scan : Scan) (body : Str) : Nat :=
  scan.p + (scan.delimOpen.length + 1) + (body.takeWhile (!· != 32)).length + (newOpen body).length +
    ((switchSpace body).takeWhile (!· != 32)).length

/-- The scanner behind a switch -/
def switched (scan : Scan) (body newClose : Str) : Scan where
  i := (switchEnd body).length - 1 - scan.delimClose.length
  p := scan.closeStart body + (closeText body).length + 1 + scan.delimClose.length
  state := scan.state
  delimOpen := newOpen body
  delimClose := newClose
  startsWithBracket := (newOpen body).head? = some 123
  newTmpl := scan.newTmpl ++ switchTag (newOpen body) newClose

theorem At.endSwitch (at_rest : scan.At tmpl (c :: rest)) (newOpen newClose : Str) :
    scan.endSwitch tmpl newOpen newClose =
      if scan.closeHere rest then .ok { scan with
        i := rest.length - scan.delimClose.length
        p := scan.p + 1 + scan.delimClose.length
        delimOpen := newOpen
        delimClose := newClose
        startsWithBracket := newOpen.head? = some 123
        newTmpl := scan.newTmpl ++ switchTag newOpen newClose }
      else throwing (bytes "Delimiter change must end with an equals") := by
  have count := at_rest.count
  rw [List.length_cons] at count
  have next_at : Scan.At { scan with p := scan.p + 1, i := scan.i - (1 : Nat) } tmpl rest := by
    refine ⟨at_rest.position.tail, ?_⟩
    simp only
    omega
  have closed_eq : Scan.closeHere { scan with p := scan.p + 1, i := scan.i - (1 : Nat) } rest =
      scan.closeHere rest := rfl
  unfold Scan.endSwitch
  simp only [bind, Except.bind, moveForward_le scan 1 (by omega), next_at.atClose, closed_eq]
  cases closed : scan.closeHere rest with
  | false => rfl
  | true =>
    have fits : scan.delimClose.length ≤ rest.length := by
      simp only [closeHere, Bool.and_eq_true, decide_eq_true_eq] at closed
      exact closed.1
    have past := moveForward_le { scan with p := scan.p + 1, i := scan.i - (1 : Nat) }
      scan.delimClose.length (by simp only; omega)
    simp only [Bool.not_true, Bool.false_eq_true, if_false, if_true, past, pure, Except.pure, Scan.append]
    congr 2
    omega

theorem At.switchBody (at_rest : scan.At tmpl rest) (fits : scan.delimOpen.length + 1 ≤ rest.length) :
    Rest tmpl (scan.p + (scan.delimOpen.length + 1)) (scan.switchBody rest) := by
  have whole : Rest tmpl scan.p (rest.take (scan.delimOpen.length + 1) ++ scan.switchBody rest) := by
    rw [Scan.switchBody, List.take_append_drop]
    exact at_rest.position
  have dropped := whole.drop
  rwa [List.length_take, Nat.min_eq_left fits] at dropped

theorem switchDelimiters_eq (at_rest : scan.At tmpl rest)
    (fits : scan.delimOpen.length + 1 ≤ rest.length) :
    switchDelimiters tmpl scan =
      if switchSpace (scan.switchBody rest) = [] then
        throwing (bytes "Delimiter change must contain a space")
      else if switchEnd (scan.switchBody rest) = [] then
        throwing (bytes "Delimiter change must contain two equals")
      else (scanBack tmpl (scan.closeStart (scan.switchBody rest) +
          (closeText (scan.switchBody rest)).length)).bind fun pce =>
        (copyText tmpl (scan.closeStart (scan.switchBody rest))
          (pce - scan.closeStart (scan.switchBody rest))).bind fun newClose =>
        if scan.closeHere (switchEnd (scan.switchBody rest)).tail then
          .ok (scan.switched (scan.switchBody rest) newClose)
        else throwing (bytes "Delimiter change must end with an equals") := by
  have count := at_rest.count
  have body_at := at_rest.switchBody fits
  have left : (scan.i - ((scan.delimOpen.length + 1 : Nat) : Int)).toNat = (scan.switchBody rest).length := by
    rw [switchBody, List.length_drop]
    omega
  generalize scan.switchBody rest = body at body_at left ⊢
  have open_at := body_at.past (!· != 32)
  have space_at := open_at.past (!· == 32)
  have close_at := space_at.past (!· != 32)
  have end_at := close_at.past (!· == 61)
  have forward : scan.moveForward (scan.delimOpen.length + 1) = .ok { scan with
      p := scan.p + (scan.delimOpen.length + 1), i := scan.i - ((scan.delimOpen.length + 1 : Nat) : Int) } :=
    if_neg (by omega)
  have copied : copyText tmpl (scan.p + (scan.delimOpen.length + 1) + (body.takeWhile (!· != 32)).length)
      (((scan.p + (scan.delimOpen.length + 1) + (body.takeWhile (!· != 32)).length +
        (newOpen body).length : Nat) : Int) -
        ((scan.p + (scan.delimOpen.length + 1) + (body.takeWhile (!· != 32)).length : Nat) : Int)) =
      .ok (newOpen body) := by
    have whole : Rest tmpl (scan.p + (scan.delimOpen.length + 1) + (body.takeWhile (!· != 32)).length)
        (newOpen body ++ switchSpace body) := by
      rw [newOpen, switchSpace, List.takeWhile_append_dropWhile]
      exact open_at
    rw [← whole.copyText]
    congr 1
    omega
  unfold switchDelimiters
  simp only [bind, Except.bind, forward, left, body_at.scanFor, open_at.scanFor, space_at.scanFor,
    close_at.scanFor, List.length_eq_zero_iff]
  change (if switchSpace body = [] then _ else _) = _
  by_cases no_space : switchSpace body = []
  · rw [if_pos no_space, if_pos no_space]
    rfl
  · rw [if_neg no_space, if_neg no_space]
    simp only [newOpen, switchOpen] at copied
    rw [copied]
    change (if switchEnd body = [] then _ else _) = _
    by_cases no_end : switchEnd body = []
    · rw [if_pos no_end, if_pos no_end]
      rfl
    · rw [if_neg no_end, if_neg no_end]
      obtain ⟨c, behind, split⟩ := List.exists_cons_of_ne_nil no_end
      change Except.bind (scanBack tmpl (scan.closeStart body + (closeText body).length)) _ = _
      congr 1
      funext pce
      change Except.bind (copyText tmpl (scan.closeStart body) (pce - scan.closeStart body)) _ = _
      congr 1
      funext newClose
      have equals_at : Scan.At { scan with
          i := (switchEnd body).length, p := scan.closeStart body + (closeText body).length }
          tmpl (c :: behind) := ⟨split ▸ end_at, by rw [split]⟩
      change Scan.endSwitch { scan with
        i := (switchEnd body).length, p := scan.closeStart body + (closeText body).length }
        tmpl (newOpen body) newClose = _
      rw [equals_at.endSwitch, split, List.tail_cons]
      have size : ((switchEnd body).length : Int) - 1 = behind.length := by
        rw [split, List.length_cons]
        omega
      unfold switched
      rw [size]
      rfl

end Scan

end HandlebarsC.Parser
