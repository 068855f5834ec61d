import HandlebarsC.Core.Program

/-!
The shape an opcode sequence gives the operand and hash stacks of the program it
belongs to, computed opcode by opcode. A sequence that has a shape never takes off
more than it has put on, except where an `append` follows an opcode that left
nothing for it.
-/

namespace HandlebarsC

/-- What an operand is known to be. `void` is no operand: it stands where
`block_value` and `invoke_partial` left nothing for the `append` after them. -/
inductive Slot where
  | any
  | program
  | void
  deriving DecidableEq, Repr

/-- Operands with the last first, and hashes. A `dead` sequence has thrown. -/
inductive Shape where
  | dead
  | live (slots : List Slot) (hashes : Nat)
  deriving DecidableEq, Repr

namespace Shape

def start : Shape := live [] 0

/-- `argc` arguments. -/
def takeArguments : Nat → List Slot → Option (List Slot)
  | 0, slots => some slots
  | argc + 1, .any :: slots => takeArguments argc slots
  | _ + 1, _ => none

/-- What `setup_options` takes. -/
def takeOptions (argc : Nat) : List Slot → Option (List Slot)
  | .any :: .program :: .program :: slots => takeArguments argc slots
  | _ => none

def argcOf : Operand → Option Nat
  | .long longval => some longval.toNat
  | _ => none

/-- The operands a partial call takes besides the options. -/
def partialArgc : Operand → Option Nat
  | .boolean isDynamic => some (if isDynamic then 2 else 1)
  | _ => none

/-- Puts an operand in the place of what was taken. -/
def replace (slot : Slot) (hashes : Nat) (taken : Option (List Slot)) : Option Shape :=
  taken.map fun slots => live (slot :: slots) hashes

/-- A statement that leaves nothing, with nothing below it. -/
def vacate (hashes : Nat) : Option (List Slot) → Option Shape
  | some [] => some (live [.void] hashes)
  | _ => none

def stepSlots (type : OpcodeType) (op1 : Operand) (slots : List Slot) (hashes : Nat) :
    Option Shape :=
  match type with
  | .append | .appendEscaped => (takeArguments 1 slots).map fun slots => live slots hashes
  | .appendContent | .getContext => some (live slots hashes)
  | .emptyHash | .pushLiteral | .pushString | .lookupData | .lookupBlockParam | .pushContext
  | .lookupOnContext => some (live (.any :: slots) hashes)
  | .pushProgram => some (live (.program :: slots) hashes)
  | .pushHash => some (live slots (hashes + 1))
  | .popHash =>
    match hashes with
    | 0 => none
    | hashes + 1 => some (live (.any :: slots) hashes)
  | .assignToHash =>
    if 0 < hashes then (takeArguments 1 slots).map fun slots => live slots hashes else none
  | .resolvePossibleLambda => replace .any hashes (takeArguments 1 slots)
  | .invokeAmbiguous =>
    match slots with
    | .any :: .program :: .program :: slots => some (live (.any :: slots) hashes)
    | _ => none
  | .invokeHelper =>
    match slots with
    | .any :: slots => replace .any hashes ((argcOf op1).bind fun argc => takeOptions argc slots)
    | _ => none
  | .invokeKnownHelper => replace .any hashes ((argcOf op1).bind fun argc => takeOptions argc slots)
  | .ambiguousBlockValue => replace .any hashes (takeOptions 1 slots)
  | .blockValue => vacate hashes (takeOptions 1 slots)
  | .invokePartial => vacate hashes ((partialArgc op1).bind fun argc => takeOptions argc slots)
  | .ret => none
  | .invalid | .nil | .push | .pushId | .pushStringParam | .registerDecorator => some dead

/-- Nothing but `append` follows an opcode that left nothing. -/
def stepOn (type : OpcodeType) (op1 : Operand) : Shape → Option Shape
  | dead => some dead
  | live (.void :: slots) hashes => if type = .append then some (live slots hashes) else none
  | live slots hashes => stepSlots type op1 slots hashes

def step (opcode : Opcode) (shape : Shape) : Option Shape := stepOn opcode.type opcode.op1 shape

def run : Shape → List Opcode → Option Shape
  | shape, [] => some shape
  | shape, opcode :: rest => (step opcode shape).bind fun shape => run shape rest

@[simp] theorem run_nil (shape : Shape) : run shape [] = some shape := rfl

@[simp] theorem run_cons (shape : Shape) (opcode : Opcode) (rest : List Opcode) :
    run shape (opcode :: rest) = (step opcode shape).bind fun shape => run shape rest := rfl

theorem run_append (shape : Shape) (front rest : List Opcode) :
    run shape (front ++ rest) = (run shape front).bind fun shape => run shape rest := by
  induction front generalizing shape with
  | nil => rfl
  | cons opcode front ih =>
    rw [List.cons_append, run_cons, run_cons]
    cases step opcode shape with
    | none => rfl
    | some next => exact ih next

theorem run_snoc (reached : run shape front = some middle) (opcode : Opcode) :
    run shape (front ++ [opcode]) = step opcode middle := by
  rw [run_append, reached, Option.bind_some, run_cons]
  cases step opcode middle <;> rfl

@[simp] theorem step_dead (opcode : Opcode) : step opcode dead = some dead := rfl

theorem step_live (opcode : Opcode) (slots : List Slot) (hashes : Nat)
    (occupied : slots.head? ≠ some .void) :
    step opcode (live slots hashes) = stepSlots opcode.type opcode.op1 slots hashes := by
  cases slots with
  | nil => rfl
  | cons slot slots =>
    cases slot with
    | any => rfl
    | program => rfl
    | void => exact absurd rfl occupied

theorem step_void (opcode : Opcode) (isAppend : opcode.type = .append) (slots : List Slot)
    (hashes : Nat) : step opcode (live (.void :: slots) hashes) = some (live slots hashes) := by
  rw [step, stepOn, if_pos isAppend]

@[simp] theorem takeArguments_replicate (argc : Nat) (slots : List Slot) :
    takeArguments argc (List.replicate argc .any ++ slots) = some slots := by
  induction argc with
  | zero => rfl
  | succ argc ih => exact ih

end Shape

end HandlebarsC
