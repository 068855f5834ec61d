import HandlebarsC.Strings.Edit

/-!
`handlebars_string_stripcslashes` with its pointers: what it reads and writes, and the length
that it keeps beside them.
-/

namespace HandlebarsC.Strings

open HandlebarsC.Parser (isOctal hexDigit octalValue)

/-- A byte from `string->val` on. -/
def byteAt (val : Str) (place : Nat) : UInt8 := val.getD place 0

/-- What one turn of the loop has found: the byte that it writes through `target`, where it has
left `source`, what it takes off `nlen`, and the bytes that it has looked at. -/
structure Turn where
  char : UInt8
  source : Nat
  cut : Nat
  reads : List Nat

/-- `source + 1 < end && isxdigit((int) (*(source + 1)))`, with the value of the digit -/
def hexBehind (val : Str) (stop source : Nat) : Option UInt8 :=
  if source + 1 < stop then hexDigit (byteAt val (source + 1)) else none

/-- The byte that `hexBehind` looks at. -/
def hexReads (stop source : Nat) : List Nat := if source + 1 < stop then [source + 1] else []

/-- The inner loop, with what is left of `numtmp`: the digits, and the bytes that it has looked
at. It looks at a byte before it compares `i`. -/
def octalDigits (val : Str) (stop : Nat) : Nat → Nat → Str × List Nat
  | left, source =>
    if source < stop then
      if isOctal (byteAt val source) then
        match left with
        | 0 => ([], [source])
        | left + 1 =>
          let (digits, reads) := octalDigits val stop left (source + 1)
          (byteAt val source :: digits, source :: reads)
      else ([], [source])
    else ([], [])

/-- The `default` of the switch. -/
def escapeDefault (val : Str) (stop source : Nat) : Turn :=
  let (digits, reads) := octalDigits val stop 3 source
  if digits.length ≠ 0 then
    ⟨octalValue digits, source + digits.length - 1, digits.length, reads⟩
  else ⟨byteAt val source, source, 1, reads ++ [source]⟩

/-- `case 'x'`, which falls through to the `default` where no digit follows. -/
def escapeHex (val : Str) (stop source : Nat) : Turn :=
  match hexBehind val stop source with
  | some high =>
    match hexBehind val stop (source + 1) with
    | some low =>
      ⟨high * 16 + low, source + 2, 3, hexReads stop source ++ hexReads stop (source + 1)⟩
    | none => ⟨high, source + 1, 2, hexReads stop source ++ hexReads stop (source + 1)⟩
  | none =>
    let escape := escapeDefault val stop source
    { escape with reads := hexReads stop source ++ escape.reads }

/-- The switch, with `source` behind the backslash. -/
def escapeAt (val : Str) (stop source : Nat) : Turn :=
  let char := byteAt val source
  if char = 110 then ⟨10, source, 1, []⟩
  else if char = 114 then ⟨13, source, 1, []⟩
  else if char = 97 then ⟨7, source, 1, []⟩
  else if char = 116 then ⟨9, source, 1, []⟩
  else if char = 118 then ⟨11, source, 1, []⟩
  else if char = 98 then ⟨8, source, 1, []⟩
  else if char = 102 then ⟨12, source, 1, []⟩
  else if char = 92 then ⟨92, source, 1, []⟩
  else if char = 120 then escapeHex val stop source
  else escapeDefault val stop source

/-- The body of the loop up to the write. -/
def turn (val : Str) (stop source : Nat) : Turn :=
  if byteAt val source = 92 ∧ source + 1 < stop then
    let escape := escapeAt val stop (source + 1)
    { escape with reads := source :: (source + 1) :: escape.reads }
  else ⟨byteAt val source, source, 0, [source]⟩

/-- `string->val`, the offsets of `source` and `target` in it, and `nlen`. -/
structure Strip where
  val : Str
  source : Nat
  target : Nat
  nlen : UInt64

/-- The write of a turn, and `source++`. -/
def Strip.next (strip : Strip) (escape : Turn) : Strip where
  val := strip.val.set strip.target escape.char
  source := escape.source + 1
  target := strip.target + 1
  nlen := strip.nlen - UInt64.ofNat escape.cut

/-- The loop, with what each turn started from and found. There is no result where it does not
end. -/
def stripLoop (stop : Nat) : Nat → Strip → Option (Strip × List (Strip × Turn))
  | fuel, strip =>
    if strip.source < stop then
      match fuel with
      | 0 => none
      | fuel + 1 =>
        let escape := turn strip.val stop strip.source
        (stripLoop stop fuel (strip.next escape)).map fun (last, turns) =>
          (last, (strip, escape) :: turns)
    else some (strip, [])

/-- The memory with the terminator, the length that is stored, and the turns of the loop. -/
structure Stripped where
  val : Str
  len : UInt64
  turns : List (Strip × Turn)

/-- `handlebars_string_stripcslashes`, from the memory and the length of the string that it is
given -/
def strip (val : Str) (len : UInt64) : Option Stripped :=
  (stripLoop len.toNat len.toNat ⟨val, 0, 0, len⟩).map fun (last, turns) =>
    ⟨last.val.set last.target 0, last.nlen, turns⟩

/-- Each turn writes one byte, behind the one before; the length that is stored is the number of
these bytes. No write is in front of where the source is, no byte from the end on is looked at,
and no more is taken off the length than there is. -/
structure Stripped.Sound (stripped : Stripped) (len : UInt64) : Prop where
  counted : stripped.len.toNat = stripped.turns.length
  placed : (stripped.turns.map fun turn => turn.1.target) = List.range stripped.turns.length
  behind : ∀ turn ∈ stripped.turns, turn.1.target ≤ turn.1.source ∧ turn.1.target ≤ turn.2.source
  inside : ∀ turn ∈ stripped.turns, ∀ place ∈ turn.2.reads, place < len.toNat
  kept : ∀ turn ∈ stripped.turns, turn.2.cut ≤ turn.1.nlen.toNat

/-! ### One turn -/

/-- An escape that is read from a place on: it leaves the source at its last byte, takes off all
its bytes but the backslash, and looks at no byte behind the end. -/
structure Turn.Fits (escape : Turn) (stop source : Nat) : Prop where
  forward : source ≤ escape.source
  before : escape.source < stop
  cut : escape.cut = escape.source - source + 1
  inside : ∀ place ∈ escape.reads, place < stop

theorem octalDigits_fits (val : Str) (stop left source : Nat) (within : source ≤ stop) :
    source + (octalDigits val stop left source).1.length ≤ stop ∧
      ∀ place ∈ (octalDigits val stop left source).2, place < stop := by
  induction left generalizing source with
  | zero =>
    unfold octalDigits
    split
    · rename_i inside
      split <;> exact ⟨within, List.forall_mem_singleton.mpr inside⟩
    · exact ⟨within, nofun⟩
  | succ left ih =>
    unfold octalDigits
    split
    · rename_i inside
      obtain ⟨length, places⟩ := ih (source + 1) inside
      split
      · refine ⟨?_, List.forall_mem_cons.mpr ⟨inside, places⟩⟩
        rw [List.length_cons]
        omega
      · exact ⟨within, List.forall_mem_singleton.mpr inside⟩
    · exact ⟨within, nofun⟩

theorem escapeDefault_fits (val : Str) (inside : source < stop) :
    (escapeDefault val stop source).Fits stop source := by
  obtain ⟨length, places⟩ := octalDigits_fits val stop 3 source (Nat.le_of_lt inside)
  unfold escapeDefault
  dsimp only
  split
  · exact ⟨by dsimp only; omega, by dsimp only; omega, by dsimp only; omega, places⟩
  · refine ⟨Nat.le_refl _, inside, by dsimp only; omega, ?_⟩
    exact List.forall_mem_append.mpr ⟨places, List.forall_mem_singleton.mpr inside⟩

theorem hexReads_inside (stop source : Nat) : ∀ place ∈ hexReads stop source, place < stop := by
  unfold hexReads
  split
  · exact List.forall_mem_singleton.mpr ‹_›
  · exact nofun

theorem hexBehind_inside (behind : hexBehind val stop source = some digit) : source + 1 < stop := by
  unfold hexBehind at behind
  split at behind
  · assumption
  · cases behind

theorem escapeHex_fits (val : Str) (inside : source < stop) :
    (escapeHex val stop source).Fits stop source := by
  have both : ∀ place ∈ hexReads stop source ++ hexReads stop (source + 1), place < stop :=
    List.forall_mem_append.mpr ⟨hexReads_inside stop source, hexReads_inside stop (source + 1)⟩
  unfold escapeHex
  cases first : hexBehind val stop source with
  | none =>
    have fits := escapeDefault_fits val inside
    exact ⟨fits.forward, fits.before, fits.cut,
      List.forall_mem_append.mpr ⟨hexReads_inside stop source, fits.inside⟩⟩
  | some high =>
    have more := hexBehind_inside first
    dsimp only
    cases second : hexBehind val stop (source + 1) with
    | none => exact ⟨Nat.le_succ _, more, by dsimp only; omega, both⟩
    | some low =>
      exact ⟨Nat.le_add_right _ _, hexBehind_inside second, by dsimp only; omega, both⟩

/-- An escape is a letter, or it is read by one of the two procedures for numbers. -/
theorem escapeAt_elim {P : Turn → Prop} (letter : ∀ byte, P ⟨byte, source, 1, []⟩)
    (hex : P (escapeHex val stop source)) (octal : P (escapeDefault val stop source)) :
    P (escapeAt val stop source) := by
  unfold escapeAt
  dsimp only
  iterate 8 refine iteInduction (fun _ => letter _) fun _ => ?_
  exact iteInduction (fun _ => hex) fun _ => octal

theorem escapeAt_fits (val : Str) (inside : source < stop) :
    (escapeAt val stop source).Fits stop source := by
  apply escapeAt_elim (P := fun escape => escape.Fits stop source)
  · exact fun byte => ⟨Nat.le_refl _, inside, by dsimp only; omega, nofun⟩
  · exact escapeHex_fits val inside
  · exact escapeDefault_fits val inside

/-- A turn takes off all its bytes but one, which it writes. -/
structure Turn.Whole (escape : Turn) (stop source : Nat) : Prop where
  forward : source ≤ escape.source
  before : escape.source < stop
  cut : escape.cut = escape.source - source
  inside : ∀ place ∈ escape.reads, place < stop

theorem turn_turns (val : Str) (inside : source < stop) :
    (turn val stop source).Whole stop source := by
  unfold turn
  split
  · rename_i slash
    have fits := escapeAt_fits val slash.2
    obtain ⟨forward, before, cut, places⟩ := fits
    refine ⟨by dsimp only; omega, before, by dsimp only; omega, ?_⟩
    exact List.forall_mem_cons.mpr ⟨inside, List.forall_mem_cons.mpr ⟨slash.2, places⟩⟩
  · exact ⟨Nat.le_refl _, inside, (Nat.sub_self _).symm, List.forall_mem_singleton.mpr inside⟩

/-! ### The loop -/

/-- What holds between two turns: the length is that of what was written and what is left. -/
structure Strip.Inv (strip : Strip) (stop : Nat) : Prop where
  behind : strip.target ≤ strip.source
  within : strip.source ≤ stop
  counted : strip.nlen.toNat + strip.source = strip.target + stop

theorem Strip.Inv.start (val : Str) (len : UInt64) : Strip.Inv ⟨val, 0, 0, len⟩ len.toNat :=
  ⟨Nat.le_refl _, Nat.zero_le _, Nat.add_comm _ _⟩

theorem Strip.Inv.next {strip : Strip} (inv : strip.Inv stop) {escape : Turn}
    (turns : escape.Whole stop strip.source) :
    escape.cut ≤ strip.nlen.toNat ∧ (strip.next escape).Inv stop := by
  obtain ⟨behind, within, counted⟩ := inv
  obtain ⟨forward, before, cut, -⟩ := turns
  have kept : escape.cut ≤ strip.nlen.toNat := by omega
  refine ⟨kept, ?_, before, ?_⟩
  · change strip.target + 1 ≤ escape.source + 1
    omega
  · have small := strip.nlen.toNat_lt
    have taken : (UInt64.ofNat escape.cut).toNat = escape.cut :=
      UInt64.toNat_ofNat_of_lt' (Nat.lt_of_le_of_lt kept small)
    change (strip.nlen - UInt64.ofNat escape.cut).toNat + (escape.source + 1) = strip.target + 1 + stop
    have fewer : UInt64.ofNat escape.cut ≤ strip.nlen := by
      rw [UInt64.le_iff_toNat_le, taken]
      exact kept
    rw [UInt64.toNat_sub_of_le _ _ fewer, taken]
    omega

theorem stripLoop_done (fuel : Nat) {strip : Strip} (done : ¬strip.source < stop) :
    stripLoop stop fuel strip = some (strip, []) := by
  unfold stripLoop
  exact if_neg done

theorem stripLoop_turn (fuel : Nat) {strip : Strip} (inside : strip.source < stop) :
    stripLoop stop (fuel + 1) strip =
      (stripLoop stop fuel (strip.next (turn strip.val stop strip.source))).map
        fun (last, turns) => (last, (strip, turn strip.val stop strip.source) :: turns) := by
  rw [stripLoop, if_pos inside]

/-- At the end the length is that of what was written. -/
theorem Strip.Inv.finished {strip : Strip} (inv : strip.Inv stop) (done : ¬strip.source < stop) :
    strip.nlen.toNat = strip.target := by
  have counted := inv.counted
  have within := inv.within
  omega

/-- The loop ends, and all its turns are as they should be. -/
theorem stripLoop_spec (stop fuel : Nat) {strip : Strip} (inv : strip.Inv stop)
    (enough : stop - strip.source ≤ fuel) :
    ∃ last turns, stripLoop stop fuel strip = some (last, turns) ∧
      last.nlen.toNat = strip.target + turns.length ∧
      (turns.map fun turn => turn.1.target) = List.range' strip.target turns.length ∧
      ∀ turn ∈ turns, turn.1.Inv stop ∧ turn.2.Whole stop turn.1.source ∧
        turn.2.cut ≤ turn.1.nlen.toNat := by
  induction fuel generalizing strip with
  | zero =>
    have done : ¬strip.source < stop := by omega
    exact ⟨strip, [], stripLoop_done 0 done, inv.finished done, rfl, nofun⟩
  | succ fuel ih =>
    by_cases inside : strip.source < stop
    · have turns := turn_turns strip.val inside
      obtain ⟨kept, following⟩ := inv.next turns
      have nearer : stop - (strip.next (turn strip.val stop strip.source)).source ≤ fuel := by
        have forward := turns.forward
        change stop - (_ + 1) ≤ fuel
        omega
      obtain ⟨last, later, ran, length, placed, all⟩ := ih following nearer
      rw [stripLoop_turn fuel inside, ran]
      refine ⟨last, _ :: later, rfl, ?_, ?_, ?_⟩
      · rw [length, List.length_cons]
        change strip.target + 1 + _ = _
        omega
      · rw [List.map_cons, placed]
        rfl
      · exact List.forall_mem_cons.mpr ⟨⟨inv, turns, kept⟩, all⟩
    · exact ⟨strip, [], stripLoop_done _ inside, inv.finished inside, rfl, nofun⟩

/-- The length that is stored is the number of the bytes that were written, for every text. -/
theorem strip_sound (val : Str) (len : UInt64) :
    ∃ stripped, strip val len = some stripped ∧ stripped.Sound len := by
  have inv := Strip.Inv.start val len
  obtain ⟨last, turns, ran, length, placed, all⟩ :=
    stripLoop_spec len.toNat len.toNat inv (Nat.sub_le _ _)
  refine ⟨_, congrArg (Option.map _) ran, ?_, ?_, ?_, ?_, ?_⟩
  · exact length.trans (Nat.zero_add _)
  · exact placed.trans List.range_eq_range'.symm
  · intro turn member
    obtain ⟨inv, turns, -⟩ := all turn member
    exact ⟨inv.behind, Nat.le_trans inv.behind turns.forward⟩
  · intro turn member
    exact (all turn member).2.1.inside
  · intro turn member
    exact (all turn member).2.2

/-! ### What is written -/

/-- The text from a place on. -/
def textFrom (val : Str) (stop source : Nat) : Str := (val.take stop).drop source

section Text

variable {val : Str} {stop source : Nat}

theorem textFrom_cons (room : stop ≤ val.length) (inside : source < stop) :
    textFrom val stop source = byteAt val source :: textFrom val stop (source + 1) := by
  have short : source < (val.take stop).length := by
    rw [List.length_take]
    omega
  unfold textFrom byteAt
  rw [List.drop_eq_getElem_cons short, List.getElem_take, List.getD_eq_getElem?_getD,
    List.getElem?_eq_getElem (by omega), Option.getD_some]

theorem textFrom_end (done : stop ≤ source) : textFrom val stop source = [] := by
  apply List.drop_eq_nil_of_le
  rw [List.length_take]
  omega

theorem drop_textFrom (val : Str) (stop source n : Nat) :
    (textFrom val stop source).drop n = textFrom val stop (source + n) :=
  List.drop_drop

/-- A write in front of a place leaves the text from there on. -/
theorem textFrom_set (char : UInt8) (front : place < source) :
    textFrom (val.set place char) stop source = textFrom val stop source := by
  unfold textFrom
  rw [List.take_set, List.drop_set_of_lt front]

theorem hexBehind_eq (room : stop ≤ val.length) :
    hexBehind val stop source = (textFrom val stop (source + 1)).head?.bind hexDigit := by
  unfold hexBehind
  split
  · rename_i inside
    rw [textFrom_cons room inside]
    rfl
  · rename_i outside
    rw [textFrom_end (Nat.le_of_not_lt outside)]
    rfl

theorem octalDigits_eq (room : stop ≤ val.length) (left source : Nat) :
    (octalDigits val stop left source).1 =
      ((textFrom val stop source).take left).takeWhile isOctal := by
  induction left generalizing source with
  | zero =>
    unfold octalDigits
    split <;> [split <;> rfl; rfl]
  | succ left ih =>
    unfold octalDigits
    split
    · rename_i inside
      rw [textFrom_cons room inside, List.take_succ_cons, List.takeWhile_cons]
      split
      · exact congrArg (_ :: ·) (ih (source + 1))
      · rfl
    · rename_i outside
      rw [textFrom_end (Nat.le_of_not_lt outside)]
      rfl

/-- An escape stands for the same byte, and is as long, as in the text. -/
def Turn.Reads (escape : Turn) (source : Nat) (read : UInt8 × Nat) : Prop :=
  escape.char = read.1 ∧ escape.source + 1 = source + read.2

theorem Turn.Reads.ite {condition : Prop} [Decidable condition] {first second : Turn}
    {read other : UInt8 × Nat} (yes : condition → first.Reads source read)
    (no : ¬condition → second.Reads source other) :
    (if condition then first else second).Reads source (if condition then read else other) := by
  by_cases holds : condition
  · rw [if_pos holds, if_pos holds]
    exact yes holds
  · rw [if_neg holds, if_neg holds]
    exact no holds

theorem escapeDefault_reads (room : stop ≤ val.length) (inside : source < stop) :
    (escapeDefault val stop source).Reads source
      (Parser.unescapeOctal (byteAt val source) (textFrom val stop (source + 1))) := by
  unfold escapeDefault Parser.unescapeOctal
  dsimp only
  rw [octalDigits_eq room, textFrom_cons room inside]
  generalize ((byteAt val source :: textFrom val stop (source + 1)).take 3).takeWhile isOctal = digits
  cases digits with
  | nil => exact ⟨rfl, rfl⟩
  | cons digit digits =>
    refine ⟨rfl, ?_⟩
    change source + (digits.length + 1) - 1 + 1 = source + (digits.length + 1)
    omega

theorem escapeHex_reads (room : stop ≤ val.length) (inside : source < stop)
    (char : byteAt val source = 120) :
    (escapeHex val stop source).Reads source
      (Parser.unescapeHex (textFrom val stop (source + 1))) := by
  unfold escapeHex
  cases first : hexBehind val stop source with
  | none =>
    obtain ⟨same, length⟩ := escapeDefault_reads room inside
    rw [char] at same length
    rw [hexBehind_eq room] at first
    rw [Parser.unescapeHex_none first]
    exact ⟨same, length⟩
  | some high =>
    have more := hexBehind_inside first
    rw [hexBehind_eq room, textFrom_cons room more] at first
    have first : hexDigit (byteAt val (source + 1)) = some high := first
    have second : hexBehind val stop (source + 1) = _ := hexBehind_eq room
    rw [textFrom_cons room more]
    unfold Parser.unescapeHex
    dsimp only
    rw [first, second]
    cases (textFrom val stop (source + 1 + 1)).head?.bind hexDigit with
    | none => exact ⟨rfl, rfl⟩
    | some low => exact ⟨rfl, rfl⟩

theorem escapeAt_reads (room : stop ≤ val.length) (inside : source < stop) :
    (escapeAt val stop source).Reads source
      (Parser.unescape (byteAt val source) (textFrom val stop (source + 1))) := by
  unfold escapeAt Parser.unescape
  iterate 8 refine .ite (fun _ => ⟨rfl, rfl⟩) fun _ => ?_
  exact .ite (escapeHex_reads room inside) fun _ => escapeDefault_reads room inside

/-- A turn writes the next byte of the stripped text. -/
theorem stripFrom_turn (room : stop ≤ val.length) (inside : source < stop) :
    Parser.stripFrom 0 (textFrom val stop source) = (turn val stop source).char ::
      Parser.stripFrom 0 (textFrom val stop ((turn val stop source).source + 1)) := by
  rw [textFrom_cons room inside]
  unfold turn
  split
  · rename_i slash
    obtain ⟨slash, more⟩ := slash
    obtain ⟨char, length⟩ := escapeAt_reads room more
    rw [slash, textFrom_cons room more, Parser.stripFrom_slash, Parser.stripFrom_drop, ← char]
    dsimp only
    rw [length, ← textFrom_cons room more, drop_textFrom]
  · rename_i other
    by_cases slash : byteAt val source = 92
    · have last : stop ≤ source + 1 := Nat.le_of_not_lt fun more => other ⟨slash, more⟩
      rw [textFrom_end last]
      rfl
    · exact Parser.stripFrom_cons slash _

end Text

theorem take_set_succ {text : Str} (char : UInt8) (inside : place < text.length) :
    (text.set place char).take (place + 1) = text.take place ++ [char] := by
  have same : place < (text.set place char).length := by rwa [List.length_set]
  rw [List.take_succ_eq_append_getElem same, List.getElem_set_self, List.take_set_of_le (Nat.le_refl _)]

/-- The bytes that the turns write. -/
def writtenBy (turns : List (Strip × Turn)) : Str := turns.map fun turn => turn.2.char

/-- The loop writes the stripped text, and leaves the memory around it. -/
theorem stripLoop_text {stop fuel : Nat} {strip last : Strip} {turns : List (Strip × Turn)}
    (inv : strip.Inv stop) (room : stop < strip.val.length)
    (ran : stripLoop stop fuel strip = some (last, turns)) :
    writtenBy turns = Parser.stripFrom 0 (textFrom strip.val stop strip.source) ∧
      last.target = strip.target + turns.length ∧
      last.val = strip.val.take strip.target ++ writtenBy turns ++ strip.val.drop last.target := by
  have whole (strip : Strip) :
      strip.val = strip.val.take strip.target ++ writtenBy [] ++ strip.val.drop strip.target := by
    rw [writtenBy, List.map_nil, List.append_nil, List.take_append_drop]
  induction fuel generalizing strip turns with
  | zero =>
    by_cases inside : strip.source < stop
    · rw [stripLoop, if_pos inside] at ran
      cases ran
    · rw [stripLoop_done _ inside] at ran
      cases ran
      rw [textFrom_end (Nat.le_of_not_lt inside)]
      exact ⟨rfl, rfl, whole _⟩
  | succ fuel ih =>
    by_cases inside : strip.source < stop
    · rw [stripLoop_turn fuel inside] at ran
      obtain ⟨⟨last, later⟩, rest, same⟩ := Option.map_eq_some_iff.mp ran
      cases same
      have step := turn_turns strip.val inside
      have behind : strip.target < (turn strip.val stop strip.source).source + 1 :=
        Nat.lt_succ_of_le (Nat.le_trans inv.behind step.forward)
      have there : strip.target < strip.val.length :=
        Nat.lt_of_le_of_lt (Nat.le_trans inv.behind inv.within) room
      have roomAfter : stop < (strip.next (turn strip.val stop strip.source)).val.length := by
        rwa [Strip.next, List.length_set]
      obtain ⟨written, target, content⟩ := ih (inv.next step).2 roomAfter rest
      have target : last.target = strip.target + 1 + later.length := target
      have content : last.val = (strip.val.set strip.target _).take (strip.target + 1) ++
          writtenBy later ++ (strip.val.set strip.target _).drop last.target := content
      refine ⟨?_, by rw [target, List.length_cons]; omega, ?_⟩
      · rw [stripFrom_turn (Nat.le_of_lt room) inside, ← textFrom_set _ behind]
        exact congrArg (_ :: ·) written
      · rw [content, take_set_succ _ there, List.drop_set_of_lt (by omega), List.append_assoc _ [_]]
        rfl
    · rw [stripLoop_done _ inside] at ran
      cases ran
      rw [textFrom_end (Nat.le_of_not_lt inside)]
      exact ⟨rfl, rfl, whole _⟩

/-- What is written is the stripped text, its length is the one that is stored, and the memory
behind the terminator stays. -/
theorem strip_text (room : len.toNat < val.length) (result : strip val len = some stripped) :
    writtenBy stripped.turns = Parser.stripcslashes (val.take len.toNat) ∧
      stripped.len.toNat = (Parser.stripcslashes (val.take len.toNat)).length ∧
      Buffer.write val 0 (Parser.stripcslashes (val.take len.toNat) ++ [0]) = some stripped.val := by
  have inv := Strip.Inv.start val len
  obtain ⟨last, turns, ran, counted, -⟩ := stripLoop_spec len.toNat len.toNat inv (Nat.sub_le _ _)
  cases result.symm.trans (congrArg (Option.map _) ran)
  obtain ⟨written, target, content⟩ := stripLoop_text inv room ran
  have written : writtenBy turns = Parser.stripcslashes (val.take len.toNat) := written
  have length : (writtenBy turns).length = turns.length := List.length_map _
  have target : last.target = (writtenBy turns).length := by rw [target, length, Nat.zero_add]
  have content : last.val = writtenBy turns ++ val.drop last.target := content
  have shorter := Parser.length_stripcslashes (val.take len.toNat)
  rw [← written, List.length_take] at shorter
  refine ⟨written, ?_, ?_⟩
  · rw [← written, length]
    exact counted.trans (Nat.zero_add _)
  · have next : (writtenBy turns).length < val.length := by omega
    have ended : last.val.set last.target 0 =
        writtenBy turns ++ [0] ++ val.drop ((writtenBy turns).length + 1) := by
      rw [content, target, List.set_append_right _ _ (Nat.le_refl _), Nat.sub_self,
        List.drop_eq_getElem_cons next, List.append_assoc]
      rfl
    change _ = some (last.val.set last.target 0)
    rw [← written, ended, Buffer.write, List.length_append, List.length_singleton, Nat.zero_add,
      if_pos (Nat.succ_le_of_lt next), List.take_zero, List.nil_append]

/-- The same is written to a string object, and its new length is the stored one. -/
theorem strip_writeTarget (string : Object) (size : len.toNat = string.len)
    (result : strip string.val len = some stripped) :
    ∃ after, string.writeTarget (Parser.stripcslashes string.text) = some after ∧
      after.val = stripped.val ∧
      stripped.len.toNat = (Parser.stripcslashes string.text).length := by
  have room : len.toNat < string.val.length := size ▸ string.fits
  obtain ⟨-, length, written⟩ := strip_text room result
  rw [size] at length written
  have within : string.len < stripped.val.length := Buffer.length_write written ▸ string.fits
  refine ⟨{ string with val := stripped.val, fits := within }, ?_, rfl, length⟩
  unfold Object.writeTarget
  rw [show Parser.stripcslashes string.text = Parser.stripcslashes (string.val.take string.len) from rfl,
    written, Option.bind_some]
  exact dif_pos within

end HandlebarsC.Strings
