import HandlebarsC.Core.Opcode

namespace HandlebarsC

/-- `struct handlebars_program`: the fields the compiler leaves for later passes. -/
inductive Program where
  | mk (guid : Int) (flags : Flags) (resultFlags : Nat) (blockParams : Nat)
      (opcodes : List Opcode) (children decorators : List Program)
  deriving Repr

namespace Program

def guid : Program → Int
  | mk guid .. => guid

def flags : Program → Flags
  | mk _ flags .. => flags

def resultFlags : Program → Nat
  | mk _ _ resultFlags .. => resultFlags

def blockParams : Program → Nat
  | mk _ _ _ blockParams .. => blockParams

def opcodes : Program → List Opcode
  | mk _ _ _ _ opcodes .. => opcodes

def children : Program → List Program
  | mk _ _ _ _ _ children _ => children

def decorators : Program → List Program
  | mk _ _ _ _ _ _ decorators => decorators

/-- A path of child indices, from the root down. -/
abbrev Path := List Nat

/-- The node a path leads to. -/
def at? (program : Program) : Path → Option Program
  | [] => some program
  | index :: rest =>
    match program.children[index]? with
    | some child => child.at? rest
    | none => none

@[simp] theorem at?_nil (program : Program) : program.at? [] = some program := rfl

theorem at?_cons (program : Program) (index : Nat) (rest : Path) :
    program.at? (index :: rest) = program.children[index]?.bind (·.at? rest) := by
  rw [at?]
  cases program.children[index]? <;> rfl

/-- Induction over a program tree, with the hypothesis for every child. -/
@[elab_as_elim]
theorem treeInduction {motive : Program → Prop}
    (node : ∀ program, (∀ child ∈ program.children, motive child) → motive program)
    (program : Program) : motive program :=
  match program with
  | mk _ _ _ _ _ children _ => node _ (go children)
where
  go (children : List Program) : ∀ child ∈ children, motive child :=
    match children with
    | [] => fun _ member => nomatch member
    | first :: rest => fun child member =>
      match List.mem_cons.mp member with
      | .inl same => same ▸ treeInduction node first
      | .inr later => go rest child later

end Program

end HandlebarsC
