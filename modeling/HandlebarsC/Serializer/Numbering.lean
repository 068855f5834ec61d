import HandlebarsC.Foundation.Blocks
import HandlebarsC.Serializer.Model

/-!
The numbering `serialize_program2` gives: the children of a node take the next
guids together, and only then does each child number its own descendants.
-/

namespace HandlebarsC

namespace Program

/-- The sum of a weight over all nodes of a tree. -/
def total (weight : Program → Nat) : Program → Nat
  | mk guid flags resultFlags blockParams opcodes children decorators =>
    weight (mk guid flags resultFlags blockParams opcodes children decorators) + go children
where
  go : List Program → Nat
    | [] => 0
    | child :: rest => child.total weight + go rest

theorem total_eq (weight : Program → Nat) (program : Program) :
    program.total weight = weight program + (program.children.map (total weight)).sum := by
  have sum : ∀ children : List Program,
      total.go weight children = (children.map (total weight)).sum := by
    intro children
    induction children with
    | nil => rfl
    | cons child rest ih => rw [total.go, ih, List.map_cons, List.sum_cons]
  cases program
  rw [total, sum, children]

/-- Nodes strictly below the root. -/
def descendants : Program → Nat :=
  total (fun node => node.children.length)

/-- Opcodes of the whole tree, with one return for every node. -/
def opcodeTotal : Program → Nat :=
  total (fun node => node.opcodes.length + 1)

theorem descendants_eq (program : Program) :
    program.descendants = program.children.length + (program.children.map descendants).sum :=
  total_eq _ program

theorem opcodeTotal_eq (program : Program) :
    program.opcodeTotal =
      program.opcodes.length + 1 + (program.children.map opcodeTotal).sum :=
  total_eq _ program

/-- First free guid for the descendants of the `index`-th child, when the
children of the node take the guids from `next` on. -/
def nextGuid (program : Program) (next index : Nat) : Nat :=
  next + program.children.length + Blocks.start (program.children.map descendants) index

/-- First opcode of the `index`-th child, when the node starts at `offset`. -/
def childOffset (program : Program) (offset index : Nat) : Nat :=
  offset + (program.opcodes.length + 1) + Blocks.start (program.children.map opcodeTotal) index

/-- The guid of the node at a path: the root has `number`, its descendants are
numbered from `next` on. -/
def guidAt (program : Program) (number next : Nat) : Path → Nat
  | [] => number
  | index :: rest =>
    match program.children[index]? with
    | some child => child.guidAt (next + index) (program.nextGuid next index) rest
    | none => 0

/-- The first opcode of the node at a path. -/
def offsetAt (program : Program) (offset : Nat) : Path → Nat
  | [] => offset
  | index :: rest =>
    match program.children[index]? with
    | some child => child.offsetAt (program.childOffset offset index) rest
    | none => 0

@[simp] theorem guidAt_nil (program : Program) (number next : Nat) :
    program.guidAt number next [] = number := rfl

@[simp] theorem offsetAt_nil (program : Program) (offset : Nat) :
    program.offsetAt offset [] = offset := rfl

theorem guidAt_cons (present : (Program.children program)[index]? = some child) :
    program.guidAt number next (index :: rest) =
      child.guidAt (next + index) (program.nextGuid next index) rest := by
  rw [guidAt, present]

theorem offsetAt_cons (present : (Program.children program)[index]? = some child) :
    program.offsetAt offset (index :: rest) =
      child.offsetAt (program.childOffset offset index) rest := by
  rw [offsetAt, present]

theorem nextGuid_bounds (next : Nat) (present : (Program.children program)[index]? = some child) :
    next + program.children.length ≤ program.nextGuid next index ∧
      program.nextGuid next index + child.descendants ≤ next + program.descendants := by
  obtain ⟨bound, rfl⟩ := List.getElem?_eq_some_iff.mp present
  have inside := Blocks.stop_le_sum (program.children.map descendants) index (by simpa using bound)
  rw [List.getElem_map] at inside
  rw [descendants_eq program, nextGuid]
  omega

/-- Guids of proper descendants lie in the range reserved for them. -/
theorem guidAt_bounds (program : Program) (number next : Nat) (path : Path) (nonempty : path ≠ [])
    (found : program.at? path = some node) :
    next ≤ program.guidAt number next path ∧
      program.guidAt number next path < next + program.descendants := by
  induction path generalizing program number next with
  | nil => exact absurd rfl nonempty
  | cons index rest ih =>
    rw [at?_cons] at found
    obtain ⟨child, present, below⟩ := Option.bind_eq_some_iff.mp found
    obtain ⟨low, high⟩ := nextGuid_bounds next present
    obtain ⟨bound, -⟩ := List.getElem?_eq_some_iff.mp present
    have total := descendants_eq program
    rw [guidAt_cons present]
    by_cases here : rest = []
    · subst here
      rw [guidAt_nil]
      omega
    · have inner := ih child (next + index) (program.nextGuid next index) here below
      omega

private theorem guid_index_inside (present : (Program.children program)[index]? = some child)
    (low : program.nextGuid next index ≤ number)
    (high : number < program.nextGuid next index + child.descendants) :
    Blocks.Inside (program.children.map descendants) index
      (number - (next + program.children.length)) := by
  refine ⟨child.descendants, by simp [present], ?_, ?_⟩ <;> rw [nextGuid] at low high <;> omega

/-- No guid is used twice. -/
theorem guidAt_injective (program : Program) (number next : Nat) (left right : Path)
    (outside : number < next) (foundLeft : program.at? left = some leftNode)
    (foundRight : program.at? right = some rightNode)
    (same : program.guidAt number next left = program.guidAt number next right) : left = right := by
  induction left generalizing program right number next with
  | nil =>
    by_cases here : right = []
    · exact here.symm
    · have later := guidAt_bounds program number next right here foundRight
      rw [guidAt_nil] at same
      omega
  | cons index left ih =>
    have here := guidAt_bounds program number next (index :: left)
      (List.cons_ne_nil _ _) foundLeft
    cases right with
    | nil =>
      rw [guidAt_nil] at same
      omega
    | cons other right =>
      rw [at?_cons] at foundLeft foundRight
      obtain ⟨leftChild, leftPresent, leftBelow⟩ := Option.bind_eq_some_iff.mp foundLeft
      obtain ⟨rightChild, rightPresent, rightBelow⟩ := Option.bind_eq_some_iff.mp foundRight
      rw [guidAt_cons leftPresent, guidAt_cons rightPresent] at same
      obtain ⟨leftBound, -⟩ := List.getElem?_eq_some_iff.mp leftPresent
      obtain ⟨rightBound, -⟩ := List.getElem?_eq_some_iff.mp rightPresent
      have leftRange := nextGuid_bounds next leftPresent
      have rightRange := nextGuid_bounds next rightPresent
      -- Two different children differ already in the guid of the subtree the path enters.
      have sameIndex : index = other := by
        by_cases leftHere : left = []
        · by_cases rightHere : right = []
          · subst leftHere rightHere
            simpa using same
          · subst leftHere
            have inner := guidAt_bounds rightChild (next + other)
              (program.nextGuid next other) right rightHere rightBelow
            rw [guidAt_nil] at same
            omega
        · have leftInner := guidAt_bounds leftChild (next + index)
            (program.nextGuid next index) left leftHere leftBelow
          by_cases rightHere : right = []
          · subst rightHere
            rw [guidAt_nil] at same
            omega
          · have rightInner := guidAt_bounds rightChild (next + other)
              (program.nextGuid next other) right rightHere rightBelow
            rw [← same] at rightInner
            exact Blocks.inside_unique
              (guid_index_inside leftPresent leftInner.1 leftInner.2)
              (guid_index_inside rightPresent rightInner.1 rightInner.2)
      subst sameIndex
      rw [leftPresent] at rightPresent
      cases rightPresent
      rw [ih leftChild (next + index) (program.nextGuid next index) right
        (by omega) leftBelow rightBelow same]

/-- Every guid of the reserved range is some descendant's. -/
theorem guidAt_surjective (program : Program) (number next wanted : Nat) (low : next ≤ wanted)
    (high : wanted < next + program.descendants) :
    ∃ path node, path ≠ [] ∧ program.at? path = some node ∧
      program.guidAt number next path = wanted := by
  induction program using treeInduction generalizing number next with
  | node program ih =>
    rw [descendants_eq] at high
    by_cases direct : wanted < next + program.children.length
    · have bound : wanted - next < program.children.length := by omega
      refine ⟨[wanted - next], program.children[wanted - next], List.cons_ne_nil _ _, ?_, ?_⟩
      · rw [at?_cons, List.getElem?_eq_getElem bound]
        rfl
      · rw [guidAt_cons (List.getElem?_eq_getElem bound), guidAt_nil]
        omega
    · obtain ⟨index, width, present, start, stop⟩ :=
        Blocks.exists_inside (program.children.map descendants)
          (wanted - (next + program.children.length)) (by omega)
      rw [List.getElem?_map] at present
      obtain ⟨child, childPresent, rfl⟩ := Option.map_eq_some_iff.mp present
      obtain ⟨path, node, -, found, same⟩ :=
        ih child (List.mem_of_getElem? childPresent) (next + index)
          (program.nextGuid next index) (by rw [nextGuid]; omega) (by rw [nextGuid]; omega)
      refine ⟨index :: path, node, List.cons_ne_nil _ _, ?_, ?_⟩
      · rw [at?_cons, childPresent]
        exact found
      · rw [guidAt_cons childPresent, same]

theorem childOffset_bounds (offset : Nat) (present : (Program.children program)[index]? = some child) :
    offset + (program.opcodes.length + 1) ≤ program.childOffset offset index ∧
      program.childOffset offset index + child.opcodeTotal ≤ offset + program.opcodeTotal := by
  obtain ⟨bound, rfl⟩ := List.getElem?_eq_some_iff.mp present
  have inside := Blocks.stop_le_sum (program.children.map opcodeTotal) index (by simpa using bound)
  rw [List.getElem_map] at inside
  rw [opcodeTotal_eq program, childOffset]
  omega

/-- `position` lies in the slice of the node at `path`. -/
def InSlice (program : Program) (offset position : Nat) (path : Path) : Prop :=
  ∃ node, program.at? path = some node ∧ program.offsetAt offset path ≤ position ∧
    position < program.offsetAt offset path + (node.opcodes.length + 1)

theorem InSlice.bounds (inSlice : InSlice program offset position path) :
    offset ≤ position ∧ position < offset + program.opcodeTotal := by
  induction path generalizing program offset with
  | nil =>
    obtain ⟨node, found, low, high⟩ := inSlice
    cases found
    rw [offsetAt_nil] at low high
    rw [opcodeTotal_eq]
    omega
  | cons index rest ih =>
    obtain ⟨node, found, low, high⟩ := inSlice
    rw [at?_cons] at found
    obtain ⟨child, present, below⟩ := Option.bind_eq_some_iff.mp found
    rw [offsetAt_cons present] at low high
    have inner := ih ⟨node, below, low, high⟩
    have range := childOffset_bounds offset present
    omega

/-- The slice of a node ends inside the tree's opcodes. -/
theorem offsetAt_stop (offset : Nat) (found : at? program path = some node) :
    program.offsetAt offset path + (node.opcodes.length + 1) ≤ offset + program.opcodeTotal := by
  have last : InSlice program offset (program.offsetAt offset path + node.opcodes.length) path :=
    ⟨node, found, by omega, by omega⟩
  have bounds := last.bounds
  omega

/-- Slices are disjoint. -/
theorem InSlice.unique (inLeft : InSlice program offset position left)
    (inRight : InSlice program offset position right) : left = right := by
  induction left generalizing program offset right with
  | nil =>
    cases right with
    | nil => rfl
    | cons index right =>
      obtain ⟨node, found, low, high⟩ := inLeft
      cases found
      obtain ⟨node, found, rightLow, rightHigh⟩ := inRight
      rw [at?_cons] at found
      obtain ⟨child, present, below⟩ := Option.bind_eq_some_iff.mp found
      rw [offsetAt_cons present] at rightLow rightHigh
      have inner := InSlice.bounds ⟨node, below, rightLow, rightHigh⟩
      have range := childOffset_bounds offset present
      rw [offsetAt_nil] at low high
      omega
  | cons index left ih =>
    obtain ⟨leftNode, foundLeft, leftLow, leftHigh⟩ := inLeft
    rw [at?_cons] at foundLeft
    obtain ⟨leftChild, leftPresent, leftBelow⟩ := Option.bind_eq_some_iff.mp foundLeft
    rw [offsetAt_cons leftPresent] at leftLow leftHigh
    have inLeft : InSlice leftChild _ _ _ := ⟨leftNode, leftBelow, leftLow, leftHigh⟩
    have leftRange := childOffset_bounds offset leftPresent
    have leftInner := inLeft.bounds
    cases right with
    | nil =>
      obtain ⟨node, found, low, high⟩ := inRight
      cases found
      rw [offsetAt_nil] at low high
      omega
    | cons other right =>
      obtain ⟨rightNode, foundRight, rightLow, rightHigh⟩ := inRight
      rw [at?_cons] at foundRight
      obtain ⟨rightChild, rightPresent, rightBelow⟩ := Option.bind_eq_some_iff.mp foundRight
      rw [offsetAt_cons rightPresent] at rightLow rightHigh
      have inRight : InSlice rightChild _ _ _ := ⟨rightNode, rightBelow, rightLow, rightHigh⟩
      have rightInner := inRight.bounds
      have sameIndex : index = other := by
        rw [childOffset] at leftInner rightInner
        have insideLeft : Blocks.Inside (program.children.map opcodeTotal) index
            (position - (offset + (program.opcodes.length + 1))) :=
          ⟨leftChild.opcodeTotal, by simp [leftPresent], by omega, by omega⟩
        have insideRight : Blocks.Inside (program.children.map opcodeTotal) other
            (position - (offset + (program.opcodes.length + 1))) :=
          ⟨rightChild.opcodeTotal, by simp [rightPresent], by omega, by omega⟩
        exact Blocks.inside_unique insideLeft insideRight
      subst sameIndex
      rw [leftPresent] at rightPresent
      cases rightPresent
      rw [ih inLeft inRight]

/-- Slices leave no opcode out. -/
theorem InSlice.cover (program : Program) (offset position : Nat) (low : offset ≤ position)
    (high : position < offset + program.opcodeTotal) : ∃ path, InSlice program offset position path := by
  induction program using treeInduction generalizing offset with
  | node program ih =>
    rw [opcodeTotal_eq] at high
    by_cases own : position < offset + (program.opcodes.length + 1)
    · exact ⟨[], program, rfl, low, own⟩
    · obtain ⟨index, width, present, start, stop⟩ :=
        Blocks.exists_inside (program.children.map opcodeTotal)
          (position - (offset + (program.opcodes.length + 1))) (by omega)
      rw [List.getElem?_map] at present
      obtain ⟨child, childPresent, rfl⟩ := Option.map_eq_some_iff.mp present
      obtain ⟨path, node, found, inner, outer⟩ :=
        ih child (List.mem_of_getElem? childPresent) (program.childOffset offset index)
          (by rw [childOffset]; omega) (by rw [childOffset]; omega)
      refine ⟨index :: path, node, ?_, ?_, ?_⟩
      · rw [at?_cons, childPresent]
        exact found
      · rw [offsetAt_cons childPresent]
        exact inner
      · rw [offsetAt_cons childPresent]
        exact outer

end Program

end HandlebarsC
