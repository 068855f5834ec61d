import HandlebarsC.Foundation.Results
import HandlebarsC.Parser.Actions
import HandlebarsC.Parser.Passes

/-!
The trees that the parser makes, and what the whitespace pass does to them.
-/

namespace HandlebarsC.Parser

open Results

section Shapes

mutual

/-- A statement as the actions make it -/
inductive Node.Parsed : Node → Prop
  | block (inner : ParsedOption program) (outer : ParsedOption inverse)
      (alone : isDecorator = true → program = none ∨ inverse = none) :
    Node.Parsed (.block 0 call marks isDecorator program inverse)
  | rawBlock (text : Str) : Node.Parsed (.rawBlock 0 call ⟨0, 0, 0⟩
      (some (.mk 0 LocInfo.zero (some [contentNode text loc]) none none false)) none)
  | mustache : Node.Parsed (.mustache strip call unescaped isDecorator)
  | partialCall : Node.Parsed (.partialCall strip loc name params pairs none)
  | partialBlock (inner : program.Parsed) :
    Node.Parsed (.partialBlock 0 loc name params pairs marks (some program))
  | content (text : Str) : Node.Parsed (contentNode text loc)
  | comment : Node.Parsed (.comment strip loc value isLong)

inductive ParsedList : List Node → Prop
  | nil : ParsedList []
  | cons (here : Node.Parsed node) (later : ParsedList rest) : ParsedList (node :: rest)

/-- A program: an empty one has no list, and one of a chain has a block and nothing else. -/
inductive ProgramTree.Parsed : ProgramTree → Prop
  | none : ProgramTree.Parsed (.mk 0 LocInfo.zero none blockParam1 blockParam2 false)
  | some (here : Node.Parsed node) (later : ParsedList rest) :
    ProgramTree.Parsed (.mk 0 loc (some (node :: rest)) blockParam1 blockParam2 false)
  | chain (inner : ParsedOption program) (outer : ParsedOption inverse) :
    ProgramTree.Parsed (.mk 0 loc (some [.block 0 call marks false program inverse]) none none true)

inductive ParsedOption : Option ProgramTree → Prop
  | none : ParsedOption none
  | some (parsed : ProgramTree.Parsed program) : ParsedOption (some program)

end

variable {program : ProgramTree}

theorem ProgramTree.Parsed.withBlockParams (parsed : program.Parsed) (plain : program.chained = false)
    (blockParam1 blockParam2 : Option Str) :
    (program.withBlockParams blockParam1 blockParam2).Parsed := by
  cases parsed with
  | none => exact .none
  | some here later => exact .some here later
  | chain => cases plain

theorem ProgramTree.Parsed.closeFirst (parsed : program.Parsed) (chained : program.chained = true)
    (strip : StripFlags) : (program.closeFirst strip).Parsed := by
  cases parsed with
  | none | some => cases chained
  | chain inner outer => exact .chain inner outer

end Shapes

/-- An inverse node as the actions make it: the block of a chain ends for now at its own inverse. -/
inductive Inverse.Parsed : Inverse → Prop
  | chain (inner : ParsedOption first) (outer : ParsedOption second) :
    Inverse.Parsed ⟨mark,
      .mk 0 loc (some [.block 0 call ⟨mark, other, other⟩ false first second]) none none true, true⟩
  | inverse {tree : ProgramTree} (parsed : tree.Parsed) (plain : tree.chained = false) :
    Inverse.Parsed ⟨mark, tree, false⟩

section Building

variable {hash : StringHash}

/-- The programs that are not of a chain -/
def Plain (program : Option ProgramTree) : Prop :=
  ∀ inner ∈ program, inner.Parsed ∧ inner.chained = false

theorem Plain.getD {program : Option ProgramTree} (plain : Plain program) :
    (program.getD emptyProgram).Parsed ∧ (program.getD emptyProgram).chained = false := by
  cases program with
  | none => exact ⟨.none, rfl⟩
  | some inner => exact plain inner rfl

theorem blockInverse_parsed {isDecorator : Bool} {inverse : Option Inverse} {close : Option Closing}
    {loc : LocInfo} {other : Option ProgramTree} (parsed : ∀ inner ∈ inverse, inner.Parsed)
    (built : blockInverse isDecorator inverse close loc = .ok other) :
    ParsedOption other ∧ (isDecorator = true → other = none) := by
  cases inverse with
  | none =>
    cases built
    exact ⟨.none, fun _ => rfl⟩
  | some inner =>
    unfold blockInverse at built
    dsimp only at built
    split at built
    · cases built
    · rename_i plain
      refine ⟨?_, fun decorates => absurd decorates plain⟩
      cases parsed inner rfl with
      | chain inner outer =>
        rw [if_pos rfl] at built
        cases close with
        | none => cases built
        | some close =>
          cases built
          exact .some (.chain inner outer)
      | inverse inside unchained =>
        cases built
        exact .some inside

theorem prepareBlock_parsed {opening : Opening} {program : Option ProgramTree}
    {inverse : Option Inverse} {close : Option Closing} {inverted : Bool} {loc : LocInfo} {node : Node}
    (plain : Plain program) (parsed : ∀ inner ∈ inverse, inner.Parsed)
    (built : prepareBlock hash opening program inverse close inverted loc = .ok node) :
    ∃ call isDecorator first second, ParsedOption first ∧ ParsedOption second ∧
      (isDecorator = true → first = none ∨ second = none) ∧
      (opening.open_ = none → isDecorator = false) ∧
      node = .block 0 call ⟨opening.strip, inverse.elim 0 (·.strip), close.elim 0 (·.strip)⟩ isDecorator
        first second := by
  unfold prepareBlock at built
  obtain ⟨_, -, built⟩ := bind_ok built
  obtain ⟨other, made, built⟩ := bind_ok built
  have ⟨outer, alone⟩ := blockInverse_parsed parsed made
  have ⟨parsed, unchained⟩ := plain.getD
  have inner : ParsedOption (some ((program.getD emptyProgram).withBlockParams opening.blockParam1
      opening.blockParam2)) := .some (parsed.withBlockParams unchained _ _)
  have keeps : opening.open_ = none →
      (opening.open_.any fun text => (cstring text).contains 42) = false := by
    intro absent
    rw [absent]
    rfl
  cases inverted with
  | true =>
    cases built
    exact ⟨_, _, _, _, outer, inner, fun decorates => .inl (alone decorates), keeps, rfl⟩
  | false =>
    cases built
    exact ⟨_, _, _, _, inner, outer, fun decorates => .inr (alone decorates), keeps, rfl⟩

theorem prepareInverseChain_parsed {opening : Opening} {program : Option ProgramTree}
    {inverse : Option Inverse} {loc : LocInfo} {chain : Inverse} (unnamed : opening.open_ = none)
    (plain : Plain program) (parsed : ∀ inner ∈ inverse, inner.Parsed)
    (built : prepareInverseChain hash opening program inverse loc = .ok chain) : chain.Parsed := by
  unfold prepareInverseChain at built
  obtain ⟨block, made, built⟩ := bind_ok built
  obtain ⟨call, isDecorator, first, second, inner, outer, -, keeps, rfl⟩ :=
    prepareBlock_parsed plain parsed made
  cases built
  cases keeps unnamed
  have same : ((inverse.map fun inner => Closing.inverse inner.strip).elim 0 (·.strip)) =
      inverse.elim 0 (·.strip) := by
    cases inverse <;> rfl
  rw [same]
  exact .chain inner outer

theorem buildOpening_ok {keeps : Bool} {tag : OpenSyntax} {strip : StripFlags} {opening : Opening}
    (built : buildOpening hash keeps tag strip = .ok opening) :
    opening.strip = strip ∧ (keeps = false → opening.open_ = none) := by
  unfold buildOpening at built
  split at built
  obtain ⟨_, -, built⟩ := bind_ok built
  obtain ⟨_, -, built⟩ := bind_ok built
  obtain ⟨_, -, built⟩ := bind_ok built
  cases built
  refine ⟨rfl, ?_⟩
  rintro rfl
  rfl

mutual

theorem buildStatement_parsed (statement : StatementSyntax) {node : Node}
    (built : buildStatement hash statement = .ok node) : node.Parsed := by
  cases statement with
  | mustache unescaped opening call closing =>
    obtain ⟨name, params, pairs⟩ := call
    rw [buildStatement] at built
    obtain ⟨_, -, built⟩ := bind_ok built
    obtain ⟨_, -, built⟩ := bind_ok built
    obtain ⟨_, -, built⟩ := bind_ok built
    cases built
    exact .mustache
  | block inverted opening program inverse closing =>
    rw [buildStatement] at built
    obtain ⟨opening, -, built⟩ := bind_ok built
    obtain ⟨program', made, built⟩ := bind_ok built
    obtain ⟨inverse', made', built⟩ := bind_ok built
    obtain ⟨path, -, built⟩ := bind_ok built
    obtain ⟨call, isDecorator, first, second, inner, outer, alone, -, rfl⟩ := prepareBlock_parsed
      (buildProgramOption_plain program made) (buildInverseOption_parsed inverse made') built
    exact .block inner outer alone
  | rawBlock opening contents closing =>
    rw [buildStatement] at built
    obtain ⟨opening, -, built⟩ := bind_ok built
    obtain ⟨_, -, built⟩ := bind_ok built
    split at built
    · cases built
      exact .rawBlock _
    · cases built
  | partialCall tag =>
    rw [buildStatement] at built
    obtain ⟨_, -, built⟩ := bind_ok built
    obtain ⟨_, -, built⟩ := bind_ok built
    obtain ⟨_, -, built⟩ := bind_ok built
    cases built
    exact .partialCall
  | partialBlock tag program closing =>
    rw [buildStatement] at built
    obtain ⟨_, -, built⟩ := bind_ok built
    obtain ⟨_, -, built⟩ := bind_ok built
    obtain ⟨_, -, built⟩ := bind_ok built
    obtain ⟨program', made, built⟩ := bind_ok built
    obtain ⟨_, -, built⟩ := bind_ok built
    obtain ⟨_, -, built⟩ := bind_ok built
    cases built
    exact .partialBlock (buildProgramOption_plain program made).getD.1
  | content first rest =>
    rw [buildStatement] at built
    cases built
    exact .content _
  | comment isLong value =>
    rw [buildStatement] at built
    unfold commentNode at built
    split at built
    · cases built
      exact .comment
    · cases built

theorem buildStatements_parsed (statements : List StatementSyntax) {nodes : List Node}
    (built : buildStatements hash statements = .ok nodes) : ParsedList nodes := by
  cases statements with
  | nil =>
    cases built
    exact .nil
  | cons statement rest =>
    rw [buildStatements] at built
    obtain ⟨node, made, built⟩ := bind_ok built
    obtain ⟨nodes, made', built⟩ := bind_ok built
    cases built
    exact .cons (buildStatement_parsed statement made) (buildStatements_parsed rest made')

theorem buildProgram_parsed (source : ProgramSyntax) {program : ProgramTree}
    (built : buildProgram hash source = .ok program) :
    program.Parsed ∧ program.chained = false := by
  cases source with
  | mk first rest =>
    rw [buildProgram] at built
    obtain ⟨node, made, built⟩ := bind_ok built
    obtain ⟨nodes, made', built⟩ := bind_ok built
    cases built
    exact ⟨.some (buildStatement_parsed first made) (buildStatements_parsed rest made'), rfl⟩

theorem buildProgramOption_plain (source : Option ProgramSyntax) {program : Option ProgramTree}
    (built : buildProgramOption hash source = .ok program) : Plain program := by
  cases source with
  | none =>
    cases built
    exact fun _ absent => by cases absent
  | some source =>
    rw [buildProgramOption] at built
    obtain ⟨program, made, built⟩ := bind_ok built
    cases built
    rintro _ ⟨⟩
    exact buildProgram_parsed source made

theorem buildInverse_parsed (source : InverseSyntax) {inverse : Inverse}
    (built : buildInverse hash source = .ok inverse) : inverse.Parsed := by
  cases source with
  | chain tag program rest =>
    rw [buildInverse] at built
    obtain ⟨opening, opened, built⟩ := bind_ok built
    obtain ⟨program', made, built⟩ := bind_ok built
    obtain ⟨inverse', made', built⟩ := bind_ok built
    exact prepareInverseChain_parsed ((buildOpening_ok opened).2 rfl)
      (buildProgramOption_plain program made) (buildInverseOption_parsed rest made') built
  | inverse tag program =>
    rw [buildInverse] at built
    obtain ⟨program', made, built⟩ := bind_ok built
    cases built
    have ⟨parsed, plain⟩ := (buildProgramOption_plain program made).getD
    exact .inverse parsed plain

theorem buildInverseOption_parsed (source : Option InverseSyntax) {inverse : Option Inverse}
    (built : buildInverseOption hash source = .ok inverse) : ∀ inner ∈ inverse, inner.Parsed := by
  cases source with
  | none =>
    cases built
    exact fun _ absent => by cases absent
  | some source =>
    rw [buildInverseOption] at built
    obtain ⟨inverse, made, built⟩ := bind_ok built
    cases built
    rintro _ ⟨⟩
    exact buildInverse_parsed source made

end

end Building

section Linked

mutual

theorem Node.Parsed.linked {node : Node} (parsed : node.Parsed) : node.linked = true := by
  cases parsed with
  | block inner outer =>
    rw [Node.linked, inner.linked, outer.linked]
    rfl
  | rawBlock | mustache | partialCall | partialBlock | content | comment => rfl

theorem ParsedList.linked {nodes : List Node} (parsed : ParsedList nodes) :
    listLinked nodes = true := by
  cases parsed with
  | nil => rfl
  | cons here later =>
    rw [listLinked, here.linked, later.linked]
    rfl

theorem ProgramTree.Parsed.linked {program : ProgramTree} (parsed : program.Parsed) :
    program.linked = true := by
  cases parsed with
  | none => rfl
  | some here later =>
    rw [ProgramTree.linked, statementsLinked, listLinked, here.linked, later.linked]
    rfl
  | chain inner outer =>
    rw [ProgramTree.linked, statementsLinked, listLinked, Node.linked, inner.linked, outer.linked]
    rfl

theorem ParsedOption.linked {program : Option ProgramTree} (parsed : ParsedOption program) :
    optionLinked program = true := by
  cases parsed with
  | none => rfl
  | some inside => exact inside.linked

end

theorem fresh_content (text : Str) (loc : LocInfo) : Content.Fresh ⟨0, loc, text, text⟩ where
  value := rfl
  left := (by decide : StripFlags.has 0 .leftStripped = false)
  right := (by decide : StripFlags.has 0 .rightStripped = false)

variable {R : Content → Content → Prop}

mutual

/-- The contents that are altered are as the parser has made them. -/
theorem Node.Parsed.alters {node after : Node} (parsed : node.Parsed) (alters : node.Alters R after) :
    node.Alters (fun text other => text.Fresh ∧ R text other) after := by
  cases parsed with
  | block inner outer =>
    cases alters with
    | block inner' outer' => exact .block (inner.alters inner') (outer.alters outer')
  | rawBlock =>
    cases alters with
    | rawBlock inner outer =>
      cases outer
      cases inner with
      | some program =>
        cases program with
        | mk inside =>
          cases inside with
          | some nodes =>
            cases nodes with
            | cons here later =>
              cases later
              cases here with
              | content related =>
                exact .rawBlock (.some (.mk (.some (.cons (.content ⟨fresh_content _ _, related⟩) .nil))))
                  .none
  | mustache =>
    cases alters
    exact .mustache
  | partialCall =>
    cases alters
    exact .partialCall
  | partialBlock =>
    cases alters
    exact .partialBlock
  | content =>
    cases alters with
    | content related => exact .content ⟨fresh_content _ _, related⟩
  | comment =>
    cases alters
    exact .comment

theorem ParsedList.alters {nodes after : List Node} (parsed : ParsedList nodes)
    (alters : AltersList R nodes after) :
    AltersList (fun text other => text.Fresh ∧ R text other) nodes after := by
  cases parsed with
  | nil =>
    cases alters
    exact .nil
  | cons here later =>
    cases alters with
    | cons here' later' => exact .cons (here.alters here') (later.alters later')

theorem ProgramTree.Parsed.alters {program after : ProgramTree} (parsed : program.Parsed)
    (alters : program.Alters R after) :
    program.Alters (fun text other => text.Fresh ∧ R text other) after := by
  cases alters with
  | mk inside =>
    cases parsed with
    | none =>
      cases inside
      exact .mk .none
    | some here later =>
      cases inside with
      | some nodes =>
        cases nodes with
        | cons here' later' => exact .mk (.some (.cons (here.alters here') (later.alters later')))
    | chain inner outer =>
      cases inside with
      | some nodes =>
        cases nodes with
        | cons here later =>
          cases later
          cases here with
          | block inner' outer' =>
            exact .mk (.some (.cons (.block (inner.alters inner') (outer.alters outer')) .nil))

theorem ParsedOption.alters {program after : Option ProgramTree} (parsed : ParsedOption program)
    (alters : AltersOption R program after) :
    AltersOption (fun text other => text.Fresh ∧ R text other) program after := by
  cases parsed with
  | none =>
    cases alters
    exact .none
  | some inside =>
    cases alters with
    | some inside' => exact .some (inside.alters inside')

end

end Linked

section Marks

mutual

/-- A tag has a strip mark, as far as the whitespace pass comes to it: it does not visit partial
blocks, and those of raw blocks are not kept. -/
def StatementSyntax.marked : StatementSyntax → Bool
  | .mustache _ opening _ closing => (stripFlags opening.text closing.text).marked
  | .block _ opening program inverse closing =>
    opening.strip.marked || programOptionMarked program || inverseOptionMarked inverse ||
      closing.strip.marked
  | .partialCall tag => tag.strip.marked
  | .comment _ value => (stripFlags value.text value.text).marked
  | .rawBlock .. | .partialBlock .. | .content .. => false

def statementsSyntaxMarked : List StatementSyntax → Bool
  | [] => false
  | statement :: rest => statement.marked || statementsSyntaxMarked rest

def ProgramSyntax.marked : ProgramSyntax → Bool
  | .mk first rest => first.marked || statementsSyntaxMarked rest

def programOptionMarked : Option ProgramSyntax → Bool
  | none => false
  | some program => program.marked

def InverseSyntax.marked : InverseSyntax → Bool
  | .chain tag program inverse =>
    tag.strip.marked || programOptionMarked program || inverseOptionMarked inverse
  | .inverse tag program => (stripFlags tag.text tag.text).marked || programOptionMarked program

def inverseOptionMarked : Option InverseSyntax → Bool
  | none => false
  | some inverse => inverse.marked

end

/-- A mark on an inverse tag, or inside of its program -/
def Inverse.marked (inverse : Inverse) : Bool := inverse.strip.marked || inverse.program.marked

def optionInverseMarked : Option Inverse → Bool
  | none => false
  | some inverse => inverse.marked

variable {hash : StringHash}

theorem withBlockParams_marked (program : Option ProgramTree) (blockParam1 blockParam2 : Option Str) :
    ((program.getD emptyProgram).withBlockParams blockParam1 blockParam2).marked =
      optionMarked program := by
  cases program with
  | none => rfl
  | some inner =>
    cases inner
    rfl

theorem marked_zero : StripFlags.marked 0 = false := by decide

/-- The marks of an inverse program, next to those of its own tag and of the one that ends the
block -/
theorem blockInverse_marked {isDecorator : Bool} {inverse : Option Inverse} {close : Option Closing}
    {loc : LocInfo} {other : Option ProgramTree} (parsed : ∀ inner ∈ inverse, inner.Parsed)
    (built : blockInverse isDecorator inverse close loc = .ok other) :
    (StripFlags.marked (inverse.elim 0 (·.strip)) || StripFlags.marked (close.elim 0 (·.strip)) ||
        optionMarked other) =
      (optionInverseMarked inverse || StripFlags.marked (close.elim 0 (·.strip))) := by
  cases inverse with
  | none =>
    cases built
    simp [optionInverseMarked, optionMarked, marked_zero]
  | some inner =>
    unfold blockInverse at built
    dsimp only at built
    split at built
    · cases built
    · cases parsed inner rfl with
      | chain inner outer =>
        rw [if_pos rfl] at built
        cases close with
        | none => cases built
        | some close =>
          cases built
          simp [optionInverseMarked, Inverse.marked, optionMarked, ProgramTree.marked, statementsMarked,
            listMarked, Node.marked, BlockMarks.marked, ProgramTree.closeFirst, ProgramTree.statements,
            ProgramTree.withStatements]
          grind
      | inverse inside unchained =>
        cases built
        simp [optionInverseMarked, Inverse.marked, optionMarked]
        grind

theorem prepareBlock_marked {opening : Opening} {program : Option ProgramTree}
    {inverse : Option Inverse} {close : Option Closing} {inverted : Bool} {loc : LocInfo} {node : Node}
    (parsed : ∀ inner ∈ inverse, inner.Parsed)
    (built : prepareBlock hash opening program inverse close inverted loc = .ok node) :
    node.marked = (opening.strip.marked || optionMarked program || optionInverseMarked inverse ||
      StripFlags.marked (close.elim 0 (·.strip))) := by
  unfold prepareBlock at built
  obtain ⟨_, -, built⟩ := bind_ok built
  obtain ⟨other, made, built⟩ := bind_ok built
  have inside := withBlockParams_marked program opening.blockParam1 opening.blockParam2
  have outside := blockInverse_marked parsed made
  rw [Bool.or_assoc, ← outside]
  cases inverted with
  | true =>
    cases built
    simp only [if_true, Node.marked, BlockMarks.marked, optionMarked]
    rw [inside]
    grind
  | false =>
    cases built
    simp only [Bool.false_eq_true, if_false, Node.marked, BlockMarks.marked]
    rw [optionMarked, inside]
    grind

mutual

theorem buildStatement_marked (statement : StatementSyntax) {node : Node}
    (built : buildStatement hash statement = .ok node) : node.marked = statement.marked := by
  cases statement with
  | mustache unescaped opening call closing =>
    obtain ⟨name, params, pairs⟩ := call
    rw [buildStatement] at built
    obtain ⟨_, -, built⟩ := bind_ok built
    obtain ⟨_, -, built⟩ := bind_ok built
    obtain ⟨_, -, built⟩ := bind_ok built
    cases built
    rfl
  | block inverted opening program inverse closing =>
    rw [buildStatement] at built
    obtain ⟨opening', opened, built⟩ := bind_ok built
    obtain ⟨program', made, built⟩ := bind_ok built
    obtain ⟨inverse', made', built⟩ := bind_ok built
    obtain ⟨path, -, built⟩ := bind_ok built
    rw [prepareBlock_marked (buildInverseOption_parsed inverse made') built, (buildOpening_ok opened).1,
      buildProgramOption_marked program made, buildInverseOption_marked inverse made']
    rfl
  | rawBlock opening contents closing =>
    rw [buildStatement] at built
    obtain ⟨opening, -, built⟩ := bind_ok built
    obtain ⟨_, -, built⟩ := bind_ok built
    split at built
    · cases built
      simp only [Node.marked, BlockMarks.marked, optionMarked, ProgramTree.marked, statementsMarked,
        listMarked, contentNode, marked_zero]
      rfl
    · cases built
  | partialCall tag =>
    rw [buildStatement] at built
    obtain ⟨_, -, built⟩ := bind_ok built
    obtain ⟨_, -, built⟩ := bind_ok built
    obtain ⟨_, -, built⟩ := bind_ok built
    cases built
    rfl
  | partialBlock tag program closing =>
    rw [buildStatement] at built
    obtain ⟨_, -, built⟩ := bind_ok built
    obtain ⟨_, -, built⟩ := bind_ok built
    obtain ⟨_, -, built⟩ := bind_ok built
    obtain ⟨_, -, built⟩ := bind_ok built
    obtain ⟨_, -, built⟩ := bind_ok built
    obtain ⟨_, -, built⟩ := bind_ok built
    cases built
    exact marked_zero
  | content first rest =>
    rw [buildStatement] at built
    cases built
    exact marked_zero
  | comment isLong value =>
    rw [buildStatement] at built
    unfold commentNode at built
    split at built
    · cases built
      rfl
    · cases built

theorem buildStatements_marked (statements : List StatementSyntax) {nodes : List Node}
    (built : buildStatements hash statements = .ok nodes) :
    listMarked nodes = statementsSyntaxMarked statements := by
  cases statements with
  | nil =>
    cases built
    rfl
  | cons statement rest =>
    rw [buildStatements] at built
    obtain ⟨node, made, built⟩ := bind_ok built
    obtain ⟨nodes, made', built⟩ := bind_ok built
    cases built
    rw [listMarked, statementsSyntaxMarked, buildStatement_marked statement made,
      buildStatements_marked rest made']

/-- The marks of a tree are those of the tags it is made of. -/
theorem buildProgram_marked (source : ProgramSyntax) {program : ProgramTree}
    (built : buildProgram hash source = .ok program) : program.marked = source.marked := by
  cases source with
  | mk first rest =>
    rw [buildProgram] at built
    obtain ⟨node, made, built⟩ := bind_ok built
    obtain ⟨nodes, made', built⟩ := bind_ok built
    cases built
    rw [ProgramTree.marked, statementsMarked, listMarked, ProgramSyntax.marked,
      buildStatement_marked first made, buildStatements_marked rest made']

theorem buildProgramOption_marked (source : Option ProgramSyntax) {program : Option ProgramTree}
    (built : buildProgramOption hash source = .ok program) :
    optionMarked program = programOptionMarked source := by
  cases source with
  | none =>
    cases built
    rfl
  | some source =>
    rw [buildProgramOption] at built
    obtain ⟨program, made, built⟩ := bind_ok built
    cases built
    exact buildProgram_marked source made

theorem buildInverse_marked (source : InverseSyntax) {inverse : Inverse}
    (built : buildInverse hash source = .ok inverse) : inverse.marked = source.marked := by
  cases source with
  | chain tag program rest =>
    rw [buildInverse] at built
    obtain ⟨opening, opened, built⟩ := bind_ok built
    obtain ⟨program', made, built⟩ := bind_ok built
    obtain ⟨inverse', made', built⟩ := bind_ok built
    unfold prepareInverseChain at built
    obtain ⟨block, blocked, built⟩ := bind_ok built
    cases built
    have inside := prepareBlock_marked (buildInverseOption_parsed rest made') blocked
    have last : StripFlags.marked ((inverse'.map fun inner => Closing.inverse inner.strip).elim 0
        (·.strip)) = true → optionInverseMarked inverse' = true := by
      cases inverse' with
      | none => simp [marked_zero]
      | some inner =>
        intro marked
        rw [optionInverseMarked, Inverse.marked, show inner.strip.marked = true from marked]
        rfl
    rw [Inverse.marked, ProgramTree.marked, statementsMarked, listMarked, listMarked, inside,
      InverseSyntax.marked, ← (buildOpening_ok opened).1, ← buildProgramOption_marked program made,
      ← buildInverseOption_marked rest made']
    grind
  | inverse tag program =>
    rw [buildInverse] at built
    obtain ⟨program', made, built⟩ := bind_ok built
    cases built
    rw [Inverse.marked, InverseSyntax.marked, ← buildProgramOption_marked program made]
    cases program' <;> rfl

theorem buildInverseOption_marked (source : Option InverseSyntax) {inverse : Option Inverse}
    (built : buildInverseOption hash source = .ok inverse) :
    optionInverseMarked inverse = inverseOptionMarked source := by
  cases source with
  | none =>
    cases built
    rfl
  | some source =>
    rw [buildInverseOption] at built
    obtain ⟨inverse, made, built⟩ := bind_ok built
    cases built
    exact buildInverse_marked source made

end

end Marks

section Ends

/-- The strip marks of the tags of a block are next to bodies with statements; the first body of an
inverted block is its inverse. -/
def marksReach (opening inverse closing : StripFlags) : Option Bool → Option Bool → Bool
  | some first, some second =>
    (!opening.has .right || first) && (!inverse.has .left || first) &&
      (!inverse.has .right || second) && (!closing.has .left || second)
  | some first, none | none, some first =>
    (!opening.has .right || first) && (!closing.has .left || first)
  | none, none => true

/-- The mark of an inverse tag -/
def InverseSyntax.strip : InverseSyntax → StripFlags
  | .chain tag _ _ => tag.strip
  | .inverse tag _ => stripFlags tag.text tag.text

/-- Whether the inverse part of a block has statements: a chain has its block. -/
def InverseSyntax.filled : InverseSyntax → Bool
  | .chain .. => true
  | .inverse _ program => program.isSome

mutual

/-- No strip mark of a block is next to an empty body. -/
def StatementSyntax.reaches : StatementSyntax → Bool
  | .block inverted opening program inverse closing =>
    programOptionReaches program && inverseOptionReaches closing.strip inverse &&
      (if inverted then
        marksReach opening.strip (inverse.elim 0 (·.strip)) closing.strip (inverse.map (·.filled))
          (some program.isSome)
      else
        marksReach opening.strip (inverse.elim 0 (·.strip)) closing.strip (some program.isSome)
          (inverse.map (·.filled)))
  | .mustache .. | .rawBlock .. | .partialCall .. | .partialBlock .. | .content .. | .comment .. => true

def statementsSyntaxReach : List StatementSyntax → Bool
  | [] => true
  | statement :: rest => statement.reaches && statementsSyntaxReach rest

def ProgramSyntax.reaches : ProgramSyntax → Bool
  | .mk first rest => first.reaches && statementsSyntaxReach rest

def programOptionReaches : Option ProgramSyntax → Bool
  | none => true
  | some program => program.reaches

/-- The block of a chain ends where the next tag of the chain or the block around it does. -/
def InverseSyntax.reaches (closing : StripFlags) : InverseSyntax → Bool
  | .chain tag program inverse =>
    programOptionReaches program && inverseOptionReaches (inverse.elim 0 (·.strip)) inverse &&
      marksReach tag.strip (inverse.elim 0 (·.strip)) closing (some program.isSome)
        (inverse.map (·.filled))
  | .inverse _ program => programOptionReaches program

def inverseOptionReaches (closing : StripFlags) : Option InverseSyntax → Bool
  | none => true
  | some inverse => inverse.reaches closing

end

variable {hash : StringHash}

theorem blockReaches_eq (marks : BlockMarks) (first second : Option ProgramTree) :
    blockReaches marks first second = marksReach marks.openStrip marks.inverseStrip marks.closeStrip
      (first.map (·.listed)) (second.map (·.listed)) := by
  cases first <;> cases second <;> simp [blockReaches, marksReach, Bool.and_assoc]

/-- What an inverse node has of its source, whatever tag ends its block -/
structure Inverse.Of (source : InverseSyntax) (inverse : Inverse) : Prop where
  strip : inverse.strip = source.strip
  listed : inverse.program.listed = source.filled
  plain : inverse.chained = false → ∀ closing, inverse.program.reaches = source.reaches closing
  chain : inverse.chained = true → ∀ closing,
    (inverse.program.closeFirst closing).reaches = source.reaches closing

/-- The inverse node of a block, if there is one -/
inductive InverseOf : Option InverseSyntax → Option Inverse → Prop
  | none : InverseOf none none
  | some (made : inverse.Of source) : InverseOf (some source) (some inverse)

theorem InverseOf.strip {source : Option InverseSyntax} {inverse : Option Inverse}
    (made : InverseOf source inverse) :
    inverse.elim 0 (·.strip) = source.elim 0 InverseSyntax.strip := by
  cases made with
  | none => rfl
  | some made => exact made.strip

/-- What a body of a block has of its source -/
structure BodyOf (source : Option ProgramSyntax) (program : Option ProgramTree) : Prop where
  listed : (program.getD emptyProgram).listed = source.isSome
  reaches : (program.getD emptyProgram).reaches = programOptionReaches source

theorem closeFirst_listed (program : ProgramTree) (strip : StripFlags) :
    (program.closeFirst strip).listed = program.listed := by
  unfold ProgramTree.closeFirst
  split
  · rename_i present
    cases program
    unfold ProgramTree.listed
    rw [present]
    rfl
  · rfl

theorem blockInverse_of {isDecorator : Bool} {source : Option InverseSyntax} {inverse : Option Inverse}
    {close : Option Closing} {loc : LocInfo} {other : Option ProgramTree}
    (made : InverseOf source inverse) (built : blockInverse isDecorator inverse close loc = .ok other) :
    other.map (·.listed) = source.map (·.filled) ∧
      optionReaches other = inverseOptionReaches (close.elim 0 (·.strip)) source := by
  cases made with
  | none =>
    cases built
    exact ⟨rfl, rfl⟩
  | @some inverse source made =>
    unfold blockInverse at built
    dsimp only at built
    split at built
    · cases built
    · split at built
      · rename_i chained
        cases close with
        | none => cases built
        | some close =>
          cases built
          exact ⟨congrArg some ((closeFirst_listed _ _).trans made.listed), made.chain chained _⟩
      · rename_i unchained
        cases built
        exact ⟨congrArg some made.listed, made.plain (by simpa using unchained) _⟩

/-- The block that is made of a body and an inverse part -/
theorem prepareBlock_of {opening : Opening} {body : Option ProgramSyntax}
    {program : Option ProgramTree} {source : Option InverseSyntax} {inverse : Option Inverse}
    {close : Option Closing} {inverted : Bool} {loc : LocInfo} {node : Node}
    (inside : BodyOf body program) (made : InverseOf source inverse)
    (built : prepareBlock hash opening program inverse close inverted loc = .ok node) :
    ∃ call isDecorator first second,
      node = .block 0 call ⟨opening.strip, source.elim 0 (·.strip), close.elim 0 (·.strip)⟩ isDecorator
        first second ∧
      (optionReaches first && optionReaches second) =
        (programOptionReaches body && inverseOptionReaches (close.elim 0 (·.strip)) source) ∧
      (first.map (·.listed), second.map (·.listed)) =
        if inverted then (source.map (·.filled), some body.isSome)
        else (some body.isSome, source.map (·.filled)) := by
  unfold prepareBlock at built
  obtain ⟨_, -, built⟩ := bind_ok built
  obtain ⟨other, outside, built⟩ := bind_ok built
  obtain ⟨listed, reaches⟩ := blockInverse_of made outside
  have own : ((program.getD emptyProgram).withBlockParams opening.blockParam1 opening.blockParam2).listed =
      body.isSome := by
    rw [← inside.listed]
    cases program.getD emptyProgram
    rfl
  have ownReaches : optionReaches (some ((program.getD emptyProgram).withBlockParams opening.blockParam1
      opening.blockParam2)) = programOptionReaches body := by
    rw [← inside.reaches]
    cases program.getD emptyProgram
    rfl
  rw [made.strip] at built
  cases inverted with
  | true =>
    cases built
    refine ⟨_, _, _, _, rfl, ?_, ?_⟩
    · rw [ownReaches, reaches, Bool.and_comm]
    · rw [if_pos rfl, Option.map_some, own, listed]
  | false =>
    cases built
    refine ⟨_, _, _, _, rfl, ?_, ?_⟩
    · rw [ownReaches, reaches]
    · rw [if_neg Bool.false_ne_true, Option.map_some, own, listed]

mutual

theorem buildStatement_reaches (statement : StatementSyntax) {node : Node}
    (built : buildStatement hash statement = .ok node) : node.reaches = statement.reaches := by
  cases statement with
  | mustache unescaped opening call closing =>
    obtain ⟨name, params, pairs⟩ := call
    rw [buildStatement] at built
    obtain ⟨_, -, built⟩ := bind_ok built
    obtain ⟨_, -, built⟩ := bind_ok built
    obtain ⟨_, -, built⟩ := bind_ok built
    cases built
    rfl
  | block inverted opening program inverse closing =>
    rw [buildStatement] at built
    obtain ⟨opening', opened, built⟩ := bind_ok built
    obtain ⟨program', made, built⟩ := bind_ok built
    obtain ⟨inverse', made', built⟩ := bind_ok built
    obtain ⟨path, -, built⟩ := bind_ok built
    obtain ⟨call, isDecorator, first, second, rfl, inside, bodies⟩ :=
      prepareBlock_of (buildProgramOption_of program made) (buildInverseOption_of inverse made') built
    rw [Node.reaches, blockReaches_eq, inside, (buildOpening_ok opened).1, StatementSyntax.reaches]
    cases inverted with
    | true | false =>
      obtain ⟨same, same'⟩ := Prod.mk.inj bodies
      rw [same, same']
      rfl
  | rawBlock opening contents closing =>
    rw [buildStatement] at built
    obtain ⟨opening, -, built⟩ := bind_ok built
    obtain ⟨_, -, built⟩ := bind_ok built
    split at built
    · cases built
      rfl
    · cases built
  | partialCall tag =>
    rw [buildStatement] at built
    obtain ⟨_, -, built⟩ := bind_ok built
    obtain ⟨_, -, built⟩ := bind_ok built
    obtain ⟨_, -, built⟩ := bind_ok built
    cases built
    rfl
  | partialBlock tag program closing =>
    rw [buildStatement] at built
    obtain ⟨_, -, built⟩ := bind_ok built
    obtain ⟨_, -, built⟩ := bind_ok built
    obtain ⟨_, -, built⟩ := bind_ok built
    obtain ⟨_, -, built⟩ := bind_ok built
    obtain ⟨_, -, built⟩ := bind_ok built
    obtain ⟨_, -, built⟩ := bind_ok built
    cases built
    rfl
  | content first rest =>
    rw [buildStatement] at built
    cases built
    rfl
  | comment isLong value =>
    rw [buildStatement] at built
    unfold commentNode at built
    split at built
    · cases built
      rfl
    · cases built

theorem buildStatements_reach (statements : List StatementSyntax) {nodes : List Node}
    (built : buildStatements hash statements = .ok nodes) :
    listReaches nodes = statementsSyntaxReach statements := by
  cases statements with
  | nil =>
    cases built
    rfl
  | cons statement rest =>
    rw [buildStatements] at built
    obtain ⟨node, made, built⟩ := bind_ok built
    obtain ⟨nodes, made', built⟩ := bind_ok built
    cases built
    rw [listReaches, statementsSyntaxReach, buildStatement_reaches statement made,
      buildStatements_reach rest made']

theorem buildProgram_reaches (source : ProgramSyntax) {program : ProgramTree}
    (built : buildProgram hash source = .ok program) :
    program.listed = true ∧ program.reaches = source.reaches := by
  cases source with
  | mk first rest =>
    rw [buildProgram] at built
    obtain ⟨node, made, built⟩ := bind_ok built
    obtain ⟨nodes, made', built⟩ := bind_ok built
    cases built
    refine ⟨rfl, ?_⟩
    rw [ProgramTree.reaches, statementsReach, listReaches, ProgramSyntax.reaches,
      buildStatement_reaches first made, buildStatements_reach rest made']

theorem buildProgramOption_of (source : Option ProgramSyntax) {program : Option ProgramTree}
    (built : buildProgramOption hash source = .ok program) : BodyOf source program := by
  cases source with
  | none =>
    cases built
    exact ⟨rfl, rfl⟩
  | some source =>
    rw [buildProgramOption] at built
    obtain ⟨program, made, built⟩ := bind_ok built
    cases built
    have ⟨listed, reaches⟩ := buildProgram_reaches source made
    exact ⟨listed, reaches⟩

theorem buildInverse_of (source : InverseSyntax) {inverse : Inverse}
    (built : buildInverse hash source = .ok inverse) : inverse.Of source := by
  cases source with
  | chain tag program rest =>
    rw [buildInverse] at built
    obtain ⟨opening, opened, built⟩ := bind_ok built
    obtain ⟨program', made, built⟩ := bind_ok built
    obtain ⟨inverse', made', built⟩ := bind_ok built
    unfold prepareInverseChain at built
    obtain ⟨block, blocked, built⟩ := bind_ok built
    cases built
    have others := buildInverseOption_of rest made'
    obtain ⟨call, isDecorator, first, second, rfl, inside, bodies⟩ :=
      prepareBlock_of (buildProgramOption_of program made) others blocked
    have closed : ((inverse'.map fun inner => Closing.inverse inner.strip).elim 0 (·.strip)) =
        rest.elim 0 (·.strip) := by
      rw [← others.strip]
      cases inverse' <;> rfl
    obtain ⟨same, same'⟩ := Prod.mk.inj bodies
    rw [closed] at inside
    refine ⟨(buildOpening_ok opened).1, rfl, by simp, fun _ closing => ?_⟩
    change (listReaches [.block 0 call ⟨opening.strip, _, closing⟩ isDecorator first second]) = _
    rw [listReaches, listReaches, Bool.and_true, Node.reaches, blockReaches_eq, inside, same, same',
      (buildOpening_ok opened).1]
    rfl
  | inverse tag program =>
    rw [buildInverse] at built
    obtain ⟨program', made, built⟩ := bind_ok built
    cases built
    have inside := buildProgramOption_of program made
    exact ⟨rfl, inside.listed, fun _ _ => inside.reaches, fun chained => by cases chained⟩

theorem buildInverseOption_of (source : Option InverseSyntax) {inverse : Option Inverse}
    (built : buildInverseOption hash source = .ok inverse) : InverseOf source inverse := by
  cases source with
  | none =>
    cases built
    exact .none
  | some source =>
    rw [buildInverseOption] at built
    obtain ⟨inverse, made, built⟩ := bind_ok built
    cases built
    exact .some (buildInverse_of source made)

end

end Ends

section Unmarked

theorem blockReaches_unmarked {marks : BlockMarks} (unmarked : marks.marked = false)
    (first second : Option ProgramTree) : blockReaches marks first second = true := by
  simp only [BlockMarks.marked, StripFlags.marked, Bool.or_eq_false_iff] at unmarked
  obtain ⟨⟨opening, inverse⟩, closing⟩ := unmarked
  cases first <;> cases second <;> simp [blockReaches, opening, inverse, closing]

mutual

theorem Node.reaches_unmarked (node : Node) (unmarked : node.marked = false) : node.reaches = true := by
  cases node with
  | block strip call marks isDecorator program inverse =>
    simp only [Node.marked, Bool.or_eq_false_iff] at unmarked
    obtain ⟨⟨own, inner⟩, outer⟩ := unmarked
    rw [Node.reaches, optionReaches_unmarked program inner, optionReaches_unmarked inverse outer,
      blockReaches_unmarked own]
    rfl
  | rawBlock strip call marks program inverse =>
    simp only [Node.marked, Bool.or_eq_false_iff] at unmarked
    obtain ⟨⟨own, inner⟩, outer⟩ := unmarked
    rw [Node.reaches, optionReaches_unmarked program inner, optionReaches_unmarked inverse outer,
      blockReaches_unmarked own]
    rfl
  | mustache | partialCall | partialBlock | content | comment => rfl

theorem listReaches_unmarked (nodes : List Node) (unmarked : listMarked nodes = false) :
    listReaches nodes = true := by
  cases nodes with
  | nil => rfl
  | cons node rest =>
    obtain ⟨here, later⟩ := Bool.or_eq_false_iff.mp unmarked
    rw [listReaches, Node.reaches_unmarked node here, listReaches_unmarked rest later]
    rfl

theorem statementsReach_unmarked (statements : Option (List Node))
    (unmarked : statementsMarked statements = false) : statementsReach statements = true := by
  cases statements with
  | none => rfl
  | some nodes => exact listReaches_unmarked nodes unmarked

theorem ProgramTree.reaches_unmarked (program : ProgramTree) (unmarked : program.marked = false) :
    program.reaches = true := by
  obtain ⟨strip, loc, statements, blockParam1, blockParam2, chained⟩ := program
  exact statementsReach_unmarked statements unmarked

theorem optionReaches_unmarked (program : Option ProgramTree) (unmarked : optionMarked program = false) :
    optionReaches program = true := by
  cases program with
  | none => rfl
  | some program => exact ProgramTree.reaches_unmarked program unmarked

end

end Unmarked

section Results

variable {hash : StringHash} {source : ProgramSyntax} {program : ProgramTree}

theorem buildTemplate_of (built : buildProgram hash source = .ok program) :
    buildTemplate hash source = trimTemplate program := by
  unfold buildTemplate
  rw [built]
  rfl

theorem trimTemplate_ok {after : ProgramTree} :
    trimTemplate program = .ok after ↔ program.accept true = some after := by
  unfold trimTemplate
  cases program.accept true with
  | none => simp
  | some trimmed => simp [pure, Except.pure]

/-- The whitespace pass goes through the tree of a template, unless a strip mark of one of its blocks
is next to an empty body: then it ends the process. -/
theorem template_ends_iff (built : buildProgram hash source = .ok program) :
    (∃ after, buildTemplate hash source = .ok after) ↔ source.reaches = true := by
  rw [buildTemplate_of built, ← (buildProgram_reaches source built).2,
    ← ProgramTree.accept_isSome true program (buildProgram_parsed source built).1.linked,
    Option.isSome_iff_exists]
  exact exists_congr fun after => trimTemplate_ok

/-- A block without a body, whose first tag closes like this -/
def emptyBlock (closing : String) : ProgramSyntax :=
  .mk (.block false ⟨⟨bytes "\x7b\x7b#", .zero⟩, .mk (.path ⟨⟨bytes "x", .zero⟩, []⟩) [] [], none,
    ⟨bytes closing, .zero⟩⟩ none none
    ⟨⟨bytes "\x7b\x7b/", .zero⟩, .path ⟨⟨bytes "x", .zero⟩, []⟩, ⟨bytes "\x7d\x7d", .zero⟩⟩) []

theorem template_ends_iff_empty :
    ¬∃ after, buildTemplate (fun _ => 0) (emptyBlock "~\x7d\x7d") = .ok after := by
  obtain ⟨program, built⟩ :
      ∃ program, buildProgram (fun _ => 0) (emptyBlock "~\x7d\x7d") = .ok program := ⟨_, rfl⟩
  rw [template_ends_iff built]
  decide

/-- A template without strip marks: the whitespace pass goes through its tree, and it takes no more
of a content than the start of one line at its front and blanks of a line at its back. -/
theorem template_keeps_lines (built : buildProgram hash source = .ok program)
    (unmarked : source.marked = false) :
    ∃ after, buildTemplate hash source = .ok after ∧ program.Alters Content.KeepsLines after := by
  have parsed := (buildProgram_parsed source built).1
  have marks : program.marked = false := (buildProgram_marked source built).trans unmarked
  have ends : (program.accept true).isSome = true := by
    rw [ProgramTree.accept_isSome true program parsed.linked, program.reaches_unmarked marks]
  obtain ⟨after, accepted⟩ := Option.isSome_iff_exists.mp ends
  refine ⟨after, (buildTemplate_of built).trans (trimTemplate_ok.mpr accepted), ?_⟩
  have omitted : program.Omitted (false = ·) after :=
    program.accept_alters rfl true (by simp [marks]) accepted
  refine (parsed.alters omitted).mono fun text trimmed known => ?_
  obtain ⟨front, back, whole, start, blank, -⟩ := known.2.keeps known.1
  exact ⟨front, back, whole, start, blank⟩

/-- A block whose tags stand on lines of their own, with lines before, in and behind it -/
def linesAround : ProgramSyntax :=
  .mk (.content ⟨bytes "a\n  ", .zero⟩ [])
    [.block false ⟨⟨bytes "\x7b\x7b#", .zero⟩, .mk (.path ⟨⟨bytes "x", .zero⟩, []⟩) [] [], none,
      ⟨bytes "\x7d\x7d", .zero⟩⟩ (some (.mk (.content ⟨bytes "\nb\n ", .zero⟩ []) [])) none
      ⟨⟨bytes "\x7b\x7b/", .zero⟩, .path ⟨⟨bytes "x", .zero⟩, []⟩, ⟨bytes "\x7d\x7d", .zero⟩⟩,
      .content ⟨bytes "\n c\n", .zero⟩ []]

theorem template_keeps_lines_around : ∃ program after,
    buildProgram (fun _ => 0) linesAround = .ok program ∧
      buildTemplate (fun _ => 0) linesAround = .ok after ∧
      program.Alters Content.KeepsLines after := by
  obtain ⟨program, built⟩ : ∃ program, buildProgram (fun _ => 0) linesAround = .ok program := ⟨_, rfl⟩
  obtain ⟨after, kept⟩ := template_keeps_lines built rfl
  exact ⟨program, after, built, kept⟩

end Results

end HandlebarsC.Parser
