import HandlebarsC.Compiler.Visits
import HandlebarsC.Render.Meaning
import HandlebarsC.Serializer.Correct
import HandlebarsC.Vm.Program

/-!
What the compiler appends to a program: code and children, with what the code is good for once
the children have their numbers in a module.
-/

namespace HandlebarsC

open Effect Compiler

namespace Render

/-- A program that is in a module, under a number, together with its children. -/
inductive Hosted (module : Module) : Program → Nat → Prop where
  | mk {program : Program} {number : Nat} {entry : TableEntry} {rest : List Opcode}
      (table : List Nat) (counted : number < module.programCount)
      (found : module.programs[number]? = some entry)
      (placed : Exec.codeFrom module entry.opcodeOffset = program.code table ++ rest)
      (enough : program.children.length ≤ table.length)
      (children : ∀ (index : Nat) (child : Program) (guid : Nat), program.children[index]? = some child →
        table[index]? = some guid → Hosted module child guid) :
      Hosted module program number

/-- The numbers of children that are in a module. -/
structure Linked (module : Module) (table : List Nat) (children : List Program) : Prop where
  enough : children.length ≤ table.length
  hosted : ∀ (index : Nat) (child : Program) (guid : Nat),
    children[index]? = some child → table[index]? = some guid → Hosted module child guid

theorem Linked.before {module : Module} {table : List Nat} {front children : List Program}
    (linked : Linked module table children) (begins : front <+: children) :
    Linked module table front := by
  obtain ⟨more, rfl⟩ := begins
  refine ⟨?_, ?_⟩
  · have := linked.enough
    rw [List.length_append] at this
    omega
  · intro index child guid present number
    exact linked.hosted index child guid
      ((List.getElem?_append_left (List.getElem?_eq_some_iff.mp present).1).trans present) number

/-- A compiler with the options of a mode, among these block parameters and nodes. -/
structure Inside (mode : Mode) (names : List BlockParamPair) (locs : List LocInfo)
    (compiler : Compiler) : Prop where
  flags : compiler.flags = mode.compileFlags
  knownHelpers : compiler.knownHelpers = mode.knownHelpers
  bps : compiler.bps = some names
  sns : compiler.sns = some locs
  counted : compiler.guid = compiler.children.length
  error : compiler.error = none

/-- A body that returns has appended code without a `return`, and children. -/
structure Appended (module : Module) (before after : Compiler)
    (good : List Nat → List Opcode → Prop) (code : List Opcode) : Prop where
  opcodes : after.opcodes = before.opcodes ++ code
  children : before.children <+: after.children
  running : ∀ opcode ∈ code, opcode.type ≠ .ret
  good : ∀ table, Linked module table after.children → good table (code.map (OpcodeOf.globalize table))

/-- What a body emits is good for something. -/
def Emits (mode : Mode) (module : Module) (names : List BlockParamPair) (locs : List LocInfo)
    (body : Compile α) (good : α → List Nat → List Opcode → Prop) : Prop :=
  ∀ before value after log, Inside mode names locs before → body before = (.ok value after, log) →
    Inside mode names locs after ∧ ∃ code, Appended module before after (good value) code

section Rules

variable {mode : Mode} {module : Module} {names : List BlockParamPair} {locs : List LocInfo}
  {good : α → List Nat → List Opcode → Prop}

theorem emits_pure (holds : ∀ table, good value table []) :
    Emits mode module names locs (pure value) good := by
  intro before _ _ _ inside ran
  cases ran
  exact ⟨inside, [], (List.append_nil _).symm, List.prefix_rfl, by simp, fun table _ => holds table⟩

theorem Emits.mono {body : Compile α} {better : α → List Nat → List Opcode → Prop}
    (emits : Emits mode module names locs body better)
    (weaker : ∀ value table code, better value table code → good value table code) :
    Emits mode module names locs body good := by
  intro before value after log inside ran
  obtain ⟨inside, code, appended⟩ := emits before value after log inside ran
  exact ⟨inside, code, appended.opcodes, appended.children, appended.running,
    fun table linked => weaker value table _ (appended.good table linked)⟩

theorem Emits.bind {first : Compile β} {next : β → Compile α}
    {middle : β → List Nat → List Opcode → Prop} {late : β → α → List Nat → List Opcode → Prop}
    (start : Emits mode module names locs first middle)
    (rest : ∀ value, Emits mode module names locs (next value) (late value))
    (join : ∀ value result table front code, middle value table front →
      late value result table code → good result table (front ++ code)) :
    Emits mode module names locs (first >>= next) good := by
  intro before result after log inside ran
  obtain ⟨value, between, early, later, begun, ended, -⟩ := Proc.bind_returned ran
  obtain ⟨inside, front, earlier⟩ := start before value between early inside begun
  obtain ⟨inside, code, appended⟩ := rest value between result after later inside ended
  refine ⟨inside, front ++ code, ?_, earlier.children.trans appended.children, ?_, ?_⟩
  · rw [appended.opcodes, earlier.opcodes, List.append_assoc]
  · intro opcode member
    rcases List.mem_append.mp member with member | member
    · exact earlier.running opcode member
    · exact appended.running opcode member
  · intro table linked
    rw [List.map_append]
    exact join value result table _ _ (earlier.good table (linked.before appended.children))
      (appended.good table linked)

/-- Code in two parts -/
def Parts (first second : List Nat → List Opcode → Prop) (table : List Nat) (code : List Opcode) :
    Prop :=
  ∃ front rest, code = front ++ rest ∧ first table front ∧ second table rest

theorem Emits.seq {first : Compile β} {next : β → Compile α} {early late : List Nat → List Opcode → Prop}
    (start : Emits mode module names locs first fun _ => early)
    (rest : ∀ value, Emits mode module names locs (next value) fun _ => late) :
    Emits mode module names locs (first >>= next) fun _ => Parts early late :=
  start.bind rest fun _ _ _ front code here later => ⟨front, code, rfl, here, later⟩

/-- A part that emits nothing -/
theorem Emits.silently {first : Compile β} {next : β → Compile α}
    (start : Emits mode module names locs first fun _ _ code => code = [])
    (rest : ∀ value, Emits mode module names locs (next value) good) :
    Emits mode module names locs (first >>= next) good := by
  refine start.bind rest ?_
  rintro value result table _ code rfl holds
  exact holds

theorem emits_read {view : Compiler → β} {next : β → Compile α}
    (rest : ∀ compiler, Inside mode names locs compiler →
      Emits mode module names locs (next (view compiler)) good) :
    Emits mode module names locs (Proc.read view >>= next) good := by
  intro before value after log inside ran
  rw [Proc.bind_read] at ran
  exact rest before inside before value after log inside ran

theorem emits_ended {body : Compile α} (ended : ∀ before value after log,
    body before ≠ (.ok value after, log)) : Emits mode module names locs body good := by
  intro before value after log _ ran
  exact absurd ran (ended before value after log)

theorem emits_raise (error : Error) :
    Emits mode module names locs (Compiler.raise error : Compile α) good :=
  emits_ended fun _ _ _ _ ran => by cases ran

theorem emits_nonnull {given : Option Str} {next : Str → Compile α}
    (rest : ∀ string, given = some string → Emits mode module names locs (next string) good) :
    Emits mode module names locs (Compiler.nonnull given >>= next) good := by
  cases given with
  | some string => exact rest string rfl
  | none => exact emits_ended fun _ _ _ _ ran => by cases ran

theorem emits_when {body : Compile Unit} {condition : Bool}
    {good : Unit → List Nat → List Opcode → Prop}
    (holds : condition = true → Emits mode module names locs body good)
    (fails : condition = false → ∀ table, good () table []) :
    Emits mode module names locs (Proc.when condition body) good := by
  cases condition with
  | true => exact holds rfl
  | false => exact emits_pure (fails rfl)

/-- A change of what neither the options nor the code depend on -/
theorem emits_write {change : Compiler → Compiler}
    (same : ∀ compiler, Inside mode names locs compiler → Inside mode names locs (change compiler))
    (opcodes : ∀ compiler, (change compiler).opcodes = compiler.opcodes := by intro; rfl)
    (children : ∀ compiler, (change compiler).children = compiler.children := by intro; rfl) :
    Emits mode module names locs (Proc.write change) fun _ _ code => code = [] := by
  intro before value after log inside ran
  cases ran
  refine ⟨same before inside, [], ?_, ?_, by simp, fun _ _ => rfl⟩
  · rw [opcodes, List.append_nil]
  · exact (children before).symm ▸ List.prefix_rfl

theorem emits_addResultFlag (flag : Nat) :
    Emits mode module names locs (addResultFlag flag) fun _ _ code => code = [] :=
  emits_write fun _ inside => { inside with }

theorem emits_addDepth (depth : Nat) :
    Emits mode module names locs (addDepth depth) fun _ _ code => code = [] :=
  emits_write fun _ inside => { inside with }

theorem emits_recordUse (path : PathNode) :
    Emits mode module names locs (recordUse path) fun _ _ code => code = [] :=
  emits_write fun _ inside => { inside with }

variable {loc : LocInfo}

/-- An opcode is placed at the innermost node. -/
theorem emits_opcode (op : Opcode) (running : op.type ≠ .ret) :
    Emits mode module names (loc :: locs) (opcode op) fun _ table code =>
      code = [(op.place loc).globalize table] := by
  intro before value after log inside ran
  cases ran
  have placed : before.nodeLoc op = loc := by
    rw [nodeLoc, inside.sns]
  refine ⟨{ inside with }, [op.place loc], ?_, List.prefix_rfl, ?_, fun _ _ => rfl⟩
  · rw [← placed]
  · intro opcode member
    rw [List.mem_singleton.mp member]
    exact running

/-- The only opcodes that name a program are those that push one. -/
theorem globalize_plain {op : Opcode} (plain : op.type ≠ .pushProgram) (table : List Nat) :
    op.globalize table = op := by
  unfold OpcodeOf.globalize
  split
  · rename_i isPush _ _
    exact absurd isPush plain
  · rfl

theorem emits_plain {op : Opcode} (running : op.type ≠ .ret) (plain : op.type ≠ .pushProgram) :
    Emits mode module names (loc :: locs) (opcode op) fun _ _ code => code = [op.place loc] := by
  refine (emits_opcode op running).mono ?_
  rintro _ table _ rfl
  rw [@globalize_plain (op.place loc) plain]

/-- A node, which there is a place for -/
theorem emits_located {body : Compile Unit} {good : Unit → List Nat → List Opcode → Prop}
    (inner : locs.length < stackSize → Emits mode module names (loc :: locs) body good) :
    Emits mode module names locs (located loc body) good := by
  intro before value after log inside ran
  unfold located at ran
  rw [Proc.bind_read, inside.sns] at ran
  dsimp only at ran
  split at ran
  · cases ran
  · split at ran
    · cases ran
    · rename_i notMore notFull
      rw [Proc.bind_write] at ran
      obtain ⟨_, between, early, later, begun, ended, -⟩ := Proc.bind_returned ran
      have entered : Inside mode names (loc :: locs) { before with sns := some (loc :: locs) } :=
        { inside with sns := rfl }
      obtain ⟨left, code, appended⟩ := inner (by omega) _ _ between early entered begun
      cases ended
      refine ⟨{ left with sns := ?_ }, code, { appended with }⟩
      change between.sns.map List.tail = _
      rw [left.sns]
      rfl

/-- The statements of a program, which there is a place for -/
theorem emits_acceptProgram {blockParam1 blockParam2 : Option Str} {count : Nat}
    {statements : Compile Unit} {good : List Nat → List Opcode → Prop}
    (inner : names.length < stackSize →
      Emits mode module (⟨blockParam1, blockParam2⟩ :: names) locs statements fun _ => good) :
    Emits mode module names locs (acceptProgram blockParam1 blockParam2 count statements)
      fun _ table code => names.length < stackSize ∧ good table code := by
  intro before value after log inside ran
  unfold acceptProgram at ran
  rw [Proc.bind_read, inside.bps] at ran
  dsimp only at ran
  split at ran
  · cases ran
  · split at ran
    · cases ran
    · rename_i notMore notFull
      have place : names.length < stackSize := by omega
      rw [Proc.bind_write] at ran
      obtain ⟨_, between, early, later, begun, ended, -⟩ := Proc.bind_returned ran
      have entered : Inside mode (⟨blockParam1, blockParam2⟩ :: names) locs
          { before with
            bps := some (⟨blockParam1, blockParam2⟩ :: names)
            declared := before.declared ++ [([], ⟨blockParam1, blockParam2⟩)] } :=
        { inside with bps := rfl }
      obtain ⟨left, code, appended⟩ := inner place _ _ between early entered begun
      rw [Proc.bind_write] at ended
      have restored : Inside mode names locs { between with bps := between.bps.map List.tail } := by
        refine { left with bps := ?_ }
        change between.bps.map List.tail = _
        rw [left.bps]
        rfl
      have silent : Emits mode module names locs (do
          Proc.when (count = 1) (addResultFlag resultIsSimple)
          Proc.write fun compiler => { compiler with
            blockParams := compiler.blockParams + blockParam1.toList.length +
              blockParam2.toList.length }) fun _ _ code => code = [] :=
        (emits_when (fun _ => emits_addResultFlag _) fun _ _ => rfl).silently fun _ =>
          emits_write fun _ inside => { inside with }
      obtain ⟨outside, more, end'⟩ := silent _ _ after later restored ended
      refine ⟨outside, code ++ more, ?_, appended.children.trans end'.children, ?_, ?_⟩
      · rw [end'.opcodes, ← List.append_assoc]
        exact congrArg (· ++ more) appended.opcodes
      · intro opcode member
        rcases List.mem_append.mp member with member | member
        · exact appended.running opcode member
        · exact end'.running opcode member
      · intro table linked
        rw [List.map_append, end'.good table linked, List.append_nil]
        exact ⟨place, appended.good table (linked.before end'.children)⟩

theorem globalize_type (table : List Nat) (op : Opcode) : (op.globalize table).type = op.type := by
  unfold OpcodeOf.globalize
  split <;> rfl

/-- The number of a program in its module -/
def globalGuid (table : List Nat) (guid : Int) : Int :=
  if guid = -1 then -1 else table.getD guid.toNat 0

/-- A program of a module whose code is good for something -/
def HasProgram (module : Module) (good : List Opcode → Prop) (number : Nat) : Prop :=
  ∃ entry code rest, number < module.programCount ∧ module.programs[number]? = some entry ∧
    Exec.codeFrom module entry.opcodeOffset = code ++ opcodeCtor .ret :: rest ∧
    (∀ opcode ∈ code, opcode.type ≠ .ret) ∧ good code

/-- The code of a program that is in a module, with its children -/
theorem Appended.hosted {start compiler : Compiler} {good : List Nat → List Opcode → Prop}
    {code : List Opcode} (appended : Appended module start compiler good code)
    (fresh : start.opcodes = []) (hosted : Hosted module compiler.program number) :
    HasProgram module (fun code => ∃ table, good table code) number := by
  obtain ⟨table, counted, found, placed, enough, children⟩ := hosted
  rename_i entry rest
  have own : compiler.program.opcodes = code := by
    change compiler.opcodes = code
    rw [appended.opcodes, fresh, List.nil_append]
  refine ⟨entry, code.map (OpcodeOf.globalize table), rest, counted, found, ?_, ?_, table, ?_⟩
  · rw [placed, Program.code, own, List.append_assoc]
    rfl
  · intro opcode member
    obtain ⟨before, present, rfl⟩ := List.mem_map.mp member
    rw [globalize_type]
    exact appended.running before present
  · exact appended.good table ⟨enough, children⟩

/-- A program of its own, which the module gives a number -/
theorem emits_compileProgram {node : Compile Unit} {good : List Nat → List Opcode → Prop}
    (emits : Emits mode module names locs node fun _ => good) :
    Emits mode module names locs (compileProgram (some node)) fun guid table code => code = [] ∧
      ∃ number : Nat, globalGuid table guid = number ∧
        HasProgram module (fun code => ∃ table, good table code) number := by
  intro before guid after log inside ran
  unfold compileProgram at ran
  dsimp only at ran
  rw [Proc.bind_read] at ran
  obtain ⟨_, between, early, later, begun, ended, -⟩ := Proc.bind_returned ran
  cases ended
  unfold compileChild within at begun
  rcases started : node (subcompiler before) with ⟨outcome, log⟩
  rw [started] at begun
  cases outcome with
  | thrown sub | aborted sub | exhausted sub => cases begun
  | ok value sub =>
    cases begun
    have fresh : Inside mode names locs (subcompiler before) :=
      ⟨inside.flags, inside.knownHelpers, inside.bps, inside.sns, rfl, rfl⟩
    obtain ⟨-, code, appended⟩ := emits _ value sub log fresh started
    refine ⟨?_, [], (List.append_nil _).symm, List.prefix_append _ _, by simp, ?_⟩
    · refine { inside with counted := ?_ }
      change before.guid + 1 = (before.children ++ [sub.program]).length
      rw [inside.counted, List.length_append]
      rfl
    · intro table linked
      have last : (before.children ++ [sub.program])[before.children.length]? = some sub.program := by
        simp
      have wide := linked.enough
      change (before.children ++ [sub.program]).length ≤ _ at wide
      rw [List.length_append, List.length_singleton] at wide
      have present := List.getElem?_eq_getElem (l := table) (i := before.children.length) (by omega)
      refine ⟨rfl, table[before.children.length], ?_, ?_⟩
      · unfold globalGuid
        rw [if_neg (by omega), inside.counted, Int.toNat_natCast, List.getD_eq_getElem?_getD, present]
        rfl
      · exact appended.hosted rfl (linked.hosted _ _ _ last present)

end Rules

end Render

end HandlebarsC
