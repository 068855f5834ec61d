import HandlebarsC.Value.Escaping
import Mathlib.Logic.Function.Basic

/-!
The cells that values are kept in, the operations that assign to them, and the
flag that keeps a string from being escaped.
-/

namespace HandlebarsC

/-- The fields `type` and `v` of a value. What an array, a map or a closure holds lies in cells
of its own. -/
inductive Payload (μ : Type) where
  | null
  | boolean (bval : Bool)
  | integer (lval : Int)
  | float (dval : Double)
  | string (val : Str)
  | array (addr : Nat) (elements : List Nat)
  | map (addr : Nat) (entries : List (Str × Nat))
  | user (addr : Nat) (json : Json)
  | ptr (addr : Nat) (module : μ)
  | helper (fn : HelperFunc)
  | closure (addr : Nat) (fn : ClosureFunc) (localv : List Nat)

/-- `struct handlebars_value` -/
structure Cell (μ : Type) where
  payload : Payload μ
  flags : UInt8

/-- `HANDLEBARS_VALUE_FLAG_SAFE_STRING` -/
def safeString : UInt8 := 1

namespace Cell

variable {μ : Type}

/-- `value->flags & HANDLEBARS_VALUE_FLAG_SAFE_STRING` -/
def isSafe (cell : Cell μ) : Bool := cell.flags &&& safeString != 0

/-- `handlebars_value_dtor` -/
def dtor (cell : Cell μ) : Cell μ := { cell with payload := .null }

/-- `handlebars_value_init` -/
def init : Cell μ := { payload := .null, flags := 0 }

/-- `handlebars_value_null` -/
def null (cell : Cell μ) : Cell μ :=
  match cell.payload with
  | .null => cell
  | _ => cell.dtor

/-- `handlebars_value_boolean` -/
def boolean (cell : Cell μ) (bval : Bool) : Cell μ := { cell.null with payload := .boolean bval }

/-- `handlebars_value_integer` -/
def integer (cell : Cell μ) (lval : Int) : Cell μ := { cell.null with payload := .integer lval }

/-- `handlebars_value_float` -/
def float (cell : Cell μ) (dval : Double) : Cell μ := { cell.null with payload := .float dval }

/-- `handlebars_value_str` -/
def str (cell : Cell μ) (string : Str) : Cell μ := { cell.null with payload := .string string }

/-- `handlebars_value_ptr` -/
def ptr (cell : Cell μ) (addr : Nat) (module : μ) : Cell μ :=
  { cell.null with payload := .ptr addr module }

/-- `handlebars_value_user` -/
def user (cell : Cell μ) (addr : Nat) (json : Json) : Cell μ :=
  { cell.null with payload := .user addr json }

/-- `handlebars_value_map` -/
def map (cell : Cell μ) (addr : Nat) (entries : List (Str × Nat)) : Cell μ :=
  { cell.null with payload := .map addr entries }

/-- `handlebars_value_array` -/
def array (cell : Cell μ) (addr : Nat) (elements : List Nat) : Cell μ :=
  { cell.null with payload := .array addr elements }

/-- `handlebars_value_helper` -/
def helper (cell : Cell μ) (fn : HelperFunc) : Cell μ := { cell.null with payload := .helper fn }

/-- `handlebars_value_closure` -/
def closure (cell : Cell μ) (addr : Nat) (fn : ClosureFunc) (localv : List Nat) : Cell μ :=
  { cell.null with payload := .closure addr fn localv }

/-- `handlebars_value_set_flag` -/
def setFlag (cell : Cell μ) (flag : UInt8) : Cell μ := { cell with flags := cell.flags ||| flag }

/-- Emptying a cell leaves its flags. -/
theorem null_eq (cell : Cell μ) : cell.null = { cell with payload := .null } := by
  obtain ⟨payload, flags⟩ := cell
  cases payload <;> rfl

end Cell

/-- The value operations, each with the cell it assigns to. -/
inductive ValueOp (μ : Type) where
  | init (dest : Nat)
  | null (dest : Nat)
  | dtor (dest : Nat)
  | boolean (dest : Nat) (bval : Bool)
  | integer (dest : Nat) (lval : Int)
  | float (dest : Nat) (dval : Double)
  | str (dest : Nat) (string : Str)
  | ptr (dest : Nat) (addr : Nat) (module : μ)
  | user (dest : Nat) (addr : Nat) (json : Json)
  | map (dest : Nat) (addr : Nat) (entries : List (Str × Nat))
  | array (dest : Nat) (addr : Nat) (elements : List Nat)
  | helper (dest : Nat) (fn : HelperFunc)
  | closure (dest : Nat) (addr : Nat) (fn : ClosureFunc) (localv : List Nat)
  | value (dest source : Nat)
  | setFlag (dest : Nat) (flag : UInt8)

/-- The cells by their address. -/
abbrev Cells (μ : Type) := Nat → Cell μ

namespace ValueOp

variable {μ : Type}

def dest : ValueOp μ → Nat
  | init dest => dest
  | null dest => dest
  | dtor dest => dest
  | boolean dest _ => dest
  | integer dest _ => dest
  | float dest _ => dest
  | str dest _ => dest
  | ptr dest _ _ => dest
  | user dest _ _ => dest
  | map dest _ _ => dest
  | array dest _ _ => dest
  | helper dest _ => dest
  | closure dest _ _ _ => dest
  | value dest _ => dest
  | setFlag dest _ => dest

/-- What the operation leaves in its cell. -/
def result (cells : Cells μ) : ValueOp μ → Cell μ
  | init _ => Cell.init
  | null dest => (cells dest).null
  | dtor dest => (cells dest).dtor
  | boolean dest bval => (cells dest).boolean bval
  | integer dest lval => (cells dest).integer lval
  | float dest dval => (cells dest).float dval
  | str dest string => (cells dest).str string
  | ptr dest addr module => (cells dest).ptr addr module
  | user dest addr json => (cells dest).user addr json
  | map dest addr entries => (cells dest).map addr entries
  | array dest addr elements => (cells dest).array addr elements
  | helper dest fn => (cells dest).helper fn
  | closure dest addr fn localv => (cells dest).closure addr fn localv
  -- The destination is emptied first, also where it is the source.
  | value dest source => Function.update cells dest (cells dest).null source
  | setFlag dest flag => (cells dest).setFlag flag

def apply (cells : Cells μ) (op : ValueOp μ) : Cells μ :=
  Function.update cells op.dest (op.result cells)

/-- Whether the value in the operation's cell is marked as safe afterwards: `set_flag` marks it,
a copy is marked as its source is, and any other value is not marked. -/
def marks (marked : Nat → Bool) : ValueOp μ → Bool
  | setFlag dest flag => marked dest || flag &&& safeString != 0
  | value _ source => marked source
  | _ => false

def mark (marked : Nat → Bool) (op : ValueOp μ) : Nat → Bool :=
  Function.update marked op.dest (op.marks marked)

/-- A string is assigned to a cell without the flag. -/
def Unflagged (cells : Cells μ) : ValueOp μ → Prop
  | str dest _ => (cells dest).isSafe = false
  | _ => True

end ValueOp

variable {μ : Type}

/-- The cells after operations, from cells that `handlebars_value_ctor` made. -/
def cellsAfter (ops : List (ValueOp μ)) : Cells μ :=
  ops.foldl ValueOp.apply fun _ => Cell.init

/-- The cells whose value was marked as safe. -/
def markedAfter (ops : List (ValueOp μ)) : Nat → Bool :=
  ops.foldl ValueOp.mark fun _ => false

/-- A cell that holds a string has the flag only if the string was marked. -/
def SafeIfMarked (cells : Cells μ) (marked : Nat → Bool) : Prop :=
  ∀ cell val, (cells cell).payload = .string val → (cells cell).isSafe = true → marked cell = true

mutual

/-- The value in a cell, none of whose strings is marked. -/
inductive Reads (cells : Cells μ) (marked : Nat → Bool) : Nat → Value μ → Prop where
  | null (held : (cells cell).payload = .null) : Reads cells marked cell .null
  | boolean (held : (cells cell).payload = .boolean bval) : Reads cells marked cell (.boolean bval)
  | integer (held : (cells cell).payload = .integer lval) : Reads cells marked cell (.integer lval)
  | float (held : (cells cell).payload = .float dval) : Reads cells marked cell (.float dval)
  | string (held : (cells cell).payload = .string val) (unmarked : marked cell = false) :
      Reads cells marked cell (.string val (cells cell).isSafe)
  | array (held : (cells cell).payload = .array addr elements)
      (items : ReadsAll cells marked elements values) : Reads cells marked cell (.array addr values)
  | map (held : (cells cell).payload = .map addr entries)
      (items : ReadsAll cells marked (entries.map Prod.snd) values) :
      Reads cells marked cell (.map addr ((entries.map Prod.fst).zip values))
  | user (held : (cells cell).payload = .user addr json) : Reads cells marked cell (.user addr json)
  | ptr (held : (cells cell).payload = .ptr addr module) :
      Reads cells marked cell (.ptr addr module)
  | helper (held : (cells cell).payload = .helper fn) : Reads cells marked cell (.helper fn)
  | closure (held : (cells cell).payload = .closure addr fn localv)
      (items : ReadsAll cells marked localv values) :
      Reads cells marked cell (.closure addr fn values)

inductive ReadsAll (cells : Cells μ) (marked : Nat → Bool) : List Nat → List (Value μ) → Prop where
  | nil : ReadsAll cells marked [] []
  | cons (item : Reads cells marked cell value) (rest : ReadsAll cells marked elements values) :
      ReadsAll cells marked (cell :: elements) (value :: values)

end

/-- The strings that no one marked are escaped when they are written. -/
def Autoescapes (platform : Platform) (cells : Cells μ) (marked : Nat → Bool) : Prop :=
  ∀ cell value, Reads cells marked cell value → Escaped (value.expression platform true)

mutual

theorem Reads.unmarked (sound : SafeIfMarked cells marked) {value : Value μ}
    (reads : Reads cells marked cell value) : value.Unmarked := by
  cases reads with
  | string held unmarked =>
    refine Bool.eq_false_iff.mpr fun safe => ?_
    exact absurd (sound _ _ held safe) (by simp [unmarked])
  | array held items => exact items.unmarked sound
  | _ => trivial

theorem ReadsAll.unmarked (sound : SafeIfMarked cells marked) {values : List (Value μ)}
    (reads : ReadsAll cells marked elements values) : Value.UnmarkedItems values := by
  cases reads with
  | nil => trivial
  | cons item rest => exact ⟨item.unmarked sound, rest.unmarked sound⟩

end

theorem autoescapes (formats : FormatsNumbers platform) {cells : Cells μ}
    (sound : SafeIfMarked cells marked) : Autoescapes platform cells marked :=
  fun _ value reads =>
    escaped_of_clean (value.clean_expression formats (reads.unmarked sound))

namespace SafeIfMarked

/-- An assignment keeps the rule when its result follows it. -/
theorem assign (sound : SafeIfMarked cells marked) {result : Cell μ}
    (follows : ∀ val, result.payload = .string val → result.isSafe = true → mark = true) :
    SafeIfMarked (Function.update cells dest result) (Function.update marked dest mark) := by
  intro cell val held safe
  by_cases same : cell = dest
  · subst same
    rw [Function.update_self] at held safe ⊢
    exact follows val held safe
  · rw [Function.update_of_ne same] at held safe ⊢
    exact sound cell val held safe

theorem setFlag_follows (sound : SafeIfMarked cells marked) {val : Str}
    (held : ((cells dest : Cell μ).setFlag flag).payload = .string val)
    (safe : ((cells dest).setFlag flag).isSafe = true) :
    (marked dest || flag &&& safeString != 0) = true := by
  by_cases before : (cells dest).isSafe = true
  · simp [sound dest val held before]
  · have unset : (cells dest).flags &&& safeString = 0 := by simpa [Cell.isSafe] using before
    have split : ((cells dest).flags ||| flag) &&& safeString ≠ 0 := by
      simpa [Cell.isSafe, Cell.setFlag] using safe
    have parts : ((cells dest).flags ||| flag) &&& safeString =
        (cells dest).flags &&& safeString ||| flag &&& safeString :=
      UInt8.toBitVec_inj.mp (by simp [BitVec.and_or_distrib_right])
    rw [parts, unset, UInt8.zero_or] at split
    simp [split]

/-- Each operation keeps the rule, given that strings are assigned to cells without the flag. -/
theorem step (sound : SafeIfMarked cells marked) {op : ValueOp μ} (unflagged : op.Unflagged cells) :
    SafeIfMarked (op.apply cells) (op.mark marked) := by
  refine sound.assign ?_
  intro val held safe
  cases op with
  | str dest string =>
    have plain : (cells dest).isSafe = false := unflagged
    simp only [ValueOp.result, Cell.str, Cell.null_eq, Cell.isSafe] at safe
    exact absurd safe (by simpa [Cell.isSafe] using plain)
  | value dest source =>
    simp only [ValueOp.result, Cell.null_eq] at held safe
    by_cases same : source = dest
    · subst same
      rw [Function.update_self] at held
      cases held
    · rw [Function.update_of_ne same] at held safe
      exact sound source val held safe
  | setFlag dest flag => exact sound.setFlag_follows held safe
  | _ => simp [ValueOp.result, Cell.init, Cell.dtor, Cell.boolean, Cell.integer, Cell.float,
      Cell.ptr, Cell.user, Cell.map, Cell.array, Cell.helper, Cell.closure, Cell.null_eq] at held

/-- A string assigned to a cell with the flag is written as it is, though no one marked it. -/
theorem not_step {op : ValueOp μ} (flagged : ¬op.Unflagged cells) :
    ¬SafeIfMarked (op.apply cells) (op.mark marked) := by
  intro sound
  cases op with
  | str dest string =>
    have safe : (cells dest).isSafe = true := by simpa [ValueOp.Unflagged] using flagged
    have held : ((ValueOp.str dest string).apply cells dest).payload = .string string := by
      simp [ValueOp.apply, ValueOp.dest, ValueOp.result, Cell.str]
    have marked := sound dest string held
      (by simpa [ValueOp.apply, ValueOp.dest, ValueOp.result, Cell.str, Cell.null_eq,
        Cell.isSafe] using safe)
    simp [ValueOp.mark, ValueOp.marks, ValueOp.dest] at marked
  | _ => exact flagged trivial

end SafeIfMarked

theorem cellsAfter_succ {ops : List (ValueOp μ)} (next : ops[count]? = some op) :
    cellsAfter (ops.take (count + 1)) = op.apply (cellsAfter (ops.take count)) := by
  simp [cellsAfter, List.take_add_one, next]

theorem markedAfter_succ {ops : List (ValueOp μ)} (next : ops[count]? = some op) :
    markedAfter (ops.take (count + 1)) = op.mark (markedAfter (ops.take count)) := by
  simp [markedAfter, List.take_add_one, next]

theorem safeIfMarked_run {ops : List (ValueOp μ)}
    (unflagged : ∀ (index : Nat) op, ops[index]? = some op → op.Unflagged (cellsAfter (ops.take index)))
    (count : Nat) : SafeIfMarked (cellsAfter (ops.take count)) (markedAfter (ops.take count)) := by
  induction count with
  | zero =>
    intro cell val held
    cases held
  | succ count ih =>
    cases next : ops[count]? with
    | none =>
      have all := List.getElem?_eq_none_iff.mp next
      rwa [List.take_of_length_le (by omega), ← List.take_of_length_le all]
    | some op =>
      rw [cellsAfter_succ next, markedAfter_succ next]
      exact ih.step (unflagged count op next)

/-- A string carries the flag only if it was marked, and what is not marked is escaped, after
every number of operations, exactly when no string is assigned to a cell that has the flag. -/
theorem safe_strings_run_iff (formats : FormatsNumbers platform) (ops : List (ValueOp μ)) :
    (∀ count, SafeIfMarked (cellsAfter (ops.take count)) (markedAfter (ops.take count)) ∧
      Autoescapes platform (cellsAfter (ops.take count)) (markedAfter (ops.take count))) ↔
    ∀ (index : Nat) op, ops[index]? = some op → op.Unflagged (cellsAfter (ops.take index)) := by
  constructor
  · intro sound index op next
    by_contra flagged
    have after := (sound (index + 1)).1
    rw [cellsAfter_succ next, markedAfter_succ next] at after
    exact SafeIfMarked.not_step flagged after
  · intro unflagged count
    have sound := safeIfMarked_run unflagged count
    exact ⟨sound, autoescapes formats sound⟩

/-- A `%g` that prints zero. -/
def zeroPlatform : Platform where
  hash := fun _ => 0
  numberLong := fun _ => none
  scanLong10 := fun _ => 0
  formatDouble := fun _ => bytes "0"

/-- A string is copied into an array before it is marked. -/
def copiedString : List (ValueOp Unit) :=
  [.str 0 (bytes "<"), .value 1 0, .setFlag 0 safeString, .array 2 0 [1], .value 3 2]

theorem safe_strings_run_copied :
    Autoescapes zeroPlatform (cellsAfter copiedString) (markedAfter copiedString) := by
  have formats : FormatsNumbers zeroPlatform := by
    intro double char member
    have digits : ∀ char ∈ bytes "0", isDigit char = true := by decide +kernel
    exact .inl (digits char member)
  have run := (safe_strings_run_iff formats copiedString).mpr ?_ 5
  · exact run.2
  · intro index op next
    match index, op, next with
    | 0, _, rfl => rfl
    | 1, _, rfl => trivial
    | 2, _, rfl => trivial
    | 3, _, rfl => trivial
    | 4, _, rfl => trivial

/-- A cell is marked, then reused for another string. -/
def reusedCell : List (ValueOp Unit) :=
  [.str 0 (bytes "a"), .setFlag 0 safeString, .str 0 (bytes "<b>")]

/-- The second string has the flag though it was not marked, and is written as it is. -/
theorem not_autoescapes_reused :
    ¬SafeIfMarked (cellsAfter reusedCell) (markedAfter reusedCell) ∧
    ¬Autoescapes zeroPlatform (cellsAfter reusedCell) (markedAfter reusedCell) := by
  constructor
  · intro sound
    exact absurd (sound 0 (bytes "<b>") rfl rfl) (by decide)
  · intro escapes
    have reads : Reads (cellsAfter reusedCell) (markedAfter reusedCell) 0
        (.string (bytes "<b>") true) := .string rfl rfl
    have written := escapes 0 _ reads
    exact written.raw 60 (by decide) (by decide)

end HandlebarsC
