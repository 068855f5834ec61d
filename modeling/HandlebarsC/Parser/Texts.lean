import HandlebarsC.Parser.Built

/-!
The texts of a template are kept: what they show stands in the tree that the parser makes
and trims, each text once, however the bodies of blocks are turned around.
-/

namespace HandlebarsC.Parser

open Results

section Tokens

/-- The text of the contents among the tokens -/
def contentText (lexemes : List Lexeme) : Str :=
  lexemes.flatMap fun lexeme => if lexeme.token = .content then lexeme.text else []

theorem contentText_append (front back : List Lexeme) :
    contentText (front ++ back) = contentText front ++ contentText back :=
  List.flatMap_append

theorem contentText_cons (lexeme : Lexeme) (rest : List Lexeme) :
    contentText (lexeme :: rest) = contentText [lexeme] ++ contentText rest :=
  contentText_append [lexeme] rest

theorem contentText_tag (terminal : Terminal) {token : TokenType} (tag : token ≠ .content) :
    contentText [terminal.as token] = [] := by
  simp [contentText, Terminal.as, tag]

theorem contentText_contents (contents : List Terminal) :
    contentText (contentLexemes contents) = contents.flatMap (·.text) := by
  induction contents with
  | nil => rfl
  | cons content rest ih =>
    rw [contentLexemes, List.map_cons, contentText_cons, ← contentLexemes, ih, List.flatMap_cons]
    simp [contentText, Terminal.as]

theorem PathSyntax.wordless (path : PathSyntax) : contentText path.lexemes = [] := by
  obtain ⟨first, rest⟩ := path
  rw [PathSyntax.lexemes, contentText_cons, contentText_tag first (by decide), List.nil_append]
  induction rest with
  | nil => rfl
  | cons pair rest ih =>
    rw [List.flatMap_cons, contentText_append, ih, contentText_cons,
      contentText_tag pair.1 (by decide), contentText_tag pair.2 (by decide)]
    rfl

theorem NameSyntax.wordless (name : NameSyntax) : contentText name.lexemes = [] := by
  cases name with
  | path segments => exact segments.wordless
  | dataName sign segments =>
    rw [NameSyntax.lexemes, contentText_cons, contentText_tag sign (by decide), segments.wordless]
    rfl
  | literal kind value => exact contentText_tag value (by cases kind <;> decide)

mutual

theorem ParamSyntax.wordless (param : ParamSyntax) : contentText param.lexemes = [] := by
  cases param with
  | name name =>
    rw [ParamSyntax.lexemes]
    exact name.wordless
  | sexpr opening call closing =>
    rw [ParamSyntax.lexemes, contentText_cons, contentText_append, call.wordless,
      contentText_tag opening (by decide), contentText_tag closing (by decide)]
    rfl

theorem CallSyntax.wordless (call : CallSyntax) : contentText call.lexemes = [] := by
  cases call with
  | mk name params pairs =>
    rw [CallSyntax.lexemes, contentText_append, contentText_append, name.wordless,
      params_wordless params, pairs_wordless pairs]
    rfl

theorem PairSyntax.wordless (pair : PairSyntax) : contentText pair.lexemes = [] := by
  cases pair with
  | mk key equals value =>
    rw [PairSyntax.lexemes, contentText_cons, contentText_tag key (by decide), List.nil_append,
      contentText_cons, contentText_tag equals (by decide), value.wordless]
    rfl

theorem params_wordless (params : List ParamSyntax) :
    contentText (paramLexemes params) = [] := by
  cases params with
  | nil => rfl
  | cons param rest =>
    rw [paramLexemes, contentText_append, param.wordless, params_wordless rest]
    rfl

theorem pairs_wordless (pairs : List PairSyntax) :
    contentText (pairLexemes pairs) = [] := by
  cases pairs with
  | nil => rfl
  | cons pair rest =>
    rw [pairLexemes, contentText_append, pair.wordless, pairs_wordless rest]
    rfl

end

theorem BlockParamsSyntax.wordless (blockParams : BlockParamsSyntax) :
    contentText blockParams.lexemes = [] := by
  obtain ⟨opening, first, second, closing⟩ := blockParams
  rw [BlockParamsSyntax.lexemes, contentText_cons, contentText_tag opening (by decide),
    List.nil_append, contentText_cons, contentText_tag first (by decide), contentText_append,
    contentText_tag closing (by decide)]
  cases second with
  | none => rfl
  | some second =>
    rw [Option.toList_some, List.map_singleton, contentText_tag second (by decide)]
    rfl

theorem OpenSyntax.wordless (tag : OpenSyntax) {opens closes : TokenType}
    (opening : opens ≠ .content) (closing : closes ≠ .content) :
    contentText (tag.lexemes opens closes) = [] := by
  rw [OpenSyntax.lexemes, contentText_cons, contentText_append, contentText_append,
    contentText_tag tag.opening opening, contentText_tag tag.closing closing, tag.call.wordless]
  cases tag.blockParams with
  | none => rfl
  | some blockParams =>
    rw [Option.toList_some, List.flatMap_singleton, blockParams.wordless]
    rfl

theorem CloseSyntax.wordless (tag : CloseSyntax) : contentText tag.lexemes = [] := by
  rw [CloseSyntax.lexemes, contentText_cons, contentText_append, tag.name.wordless,
    contentText_tag tag.opening (by decide), contentText_tag tag.closing (by decide)]
  rfl

theorem PartialSyntax.wordless (tag : PartialSyntax) {opens : TokenType}
    (opening : opens ≠ .content) : contentText (tag.lexemes opens) = [] := by
  rw [PartialSyntax.lexemes, contentText_cons, contentText_append, contentText_append,
    contentText_append, contentText_tag tag.opening opening, contentText_tag tag.closing (by decide),
    tag.name.wordless, params_wordless, pairs_wordless]
  rfl

mutual

/-- The texts that a parse tree is made of: contents that are read as one are one piece. -/
def StatementSyntax.pieces : StatementSyntax → List Str
  | .block _ _ program inverse _ => programOptionPieces program ++ inverseOptionPieces inverse
  | .rawBlock _ contents _ => [contents.flatMap (·.text)]
  | .partialBlock _ program _ => programOptionPieces program
  | .content first rest => [(first :: rest).flatMap (·.text)]
  | .mustache .. | .partialCall .. | .comment .. => []

def statementPieces : List StatementSyntax → List Str
  | [] => []
  | statement :: rest => statement.pieces ++ statementPieces rest

def ProgramSyntax.pieces : ProgramSyntax → List Str
  | .mk first rest => first.pieces ++ statementPieces rest

def programOptionPieces : Option ProgramSyntax → List Str
  | none => []
  | some program => program.pieces

def InverseSyntax.pieces : InverseSyntax → List Str
  | .chain _ program inverse => programOptionPieces program ++ inverseOptionPieces inverse
  | .inverse _ program => programOptionPieces program

def inverseOptionPieces : Option InverseSyntax → List Str
  | none => []
  | some inverse => inverse.pieces

end

mutual

/-- The pieces are the contents among the tokens, in their order. -/
theorem StatementSyntax.flatten_pieces (statement : StatementSyntax) :
    statement.pieces.flatten = contentText statement.lexemes := by
  cases statement with
  | mustache unescaped opening call closing =>
    rw [StatementSyntax.lexemes, contentText_cons, contentText_append, call.wordless,
      contentText_tag opening (by cases unescaped <;> decide),
      contentText_tag closing (by cases unescaped <;> decide)]
    rfl
  | block inverted opening program inverse closing =>
    rw [StatementSyntax.lexemes, contentText_append, contentText_append, contentText_append,
      opening.wordless (by cases inverted <;> decide) (by decide), closing.wordless,
      List.append_nil, List.nil_append, StatementSyntax.pieces, List.flatten_append,
      flatten_programOptionPieces program, flatten_inverseOptionPieces inverse]
  | rawBlock opening contents closing =>
    rw [StatementSyntax.lexemes, contentText_append, contentText_append, contentText_contents,
      opening.wordless (by decide) (by decide), contentText_tag closing (by decide),
      List.append_nil, List.nil_append, StatementSyntax.pieces, List.flatten_singleton]
  | partialCall tag =>
    rw [StatementSyntax.lexemes, tag.wordless (by decide)]
    rfl
  | partialBlock tag program closing =>
    rw [StatementSyntax.lexemes, contentText_append, contentText_append, tag.wordless (by decide),
      closing.wordless, List.append_nil, List.nil_append, StatementSyntax.pieces,
      flatten_programOptionPieces program]
  | content first rest =>
    rw [StatementSyntax.lexemes, contentText_contents, StatementSyntax.pieces, List.flatten_singleton]
  | comment isLong value =>
    rw [StatementSyntax.lexemes, contentText_tag value (by cases isLong <;> decide)]
    rfl

theorem flatten_statementPieces (statements : List StatementSyntax) :
    (statementPieces statements).flatten = contentText (statementLexemes statements) := by
  cases statements with
  | nil => rfl
  | cons statement rest =>
    rw [statementPieces, statementLexemes, List.flatten_append, contentText_append,
      statement.flatten_pieces, flatten_statementPieces rest]

theorem ProgramSyntax.flatten_pieces (source : ProgramSyntax) :
    source.pieces.flatten = contentText source.lexemes := by
  cases source with
  | mk first rest =>
    rw [ProgramSyntax.pieces, ProgramSyntax.lexemes, List.flatten_append, contentText_append,
      first.flatten_pieces, flatten_statementPieces rest]

theorem flatten_programOptionPieces (source : Option ProgramSyntax) :
    (programOptionPieces source).flatten = contentText (programOptionLexemes source) := by
  cases source with
  | none => rfl
  | some source =>
    rw [programOptionPieces, programOptionLexemes]
    exact source.flatten_pieces

theorem InverseSyntax.flatten_pieces (source : InverseSyntax) :
    source.pieces.flatten = contentText source.lexemes := by
  cases source with
  | chain tag program inverse =>
    rw [InverseSyntax.pieces, InverseSyntax.lexemes, List.flatten_append, contentText_append,
      contentText_append, tag.wordless (by decide) (by decide), List.nil_append,
      flatten_programOptionPieces program, flatten_inverseOptionPieces inverse]
  | inverse tag program =>
    rw [InverseSyntax.pieces, InverseSyntax.lexemes, contentText_cons, contentText_tag tag (by decide),
      List.nil_append, flatten_programOptionPieces program]

theorem flatten_inverseOptionPieces (source : Option InverseSyntax) :
    (inverseOptionPieces source).flatten = contentText (inverseOptionLexemes source) := by
  cases source with
  | none => rfl
  | some source =>
    rw [inverseOptionPieces, inverseOptionLexemes]
    exact source.flatten_pieces

end

end Tokens

section Trees

mutual

/-- The texts of the contents in a tree -/
def Node.texts : Node → List Str
  | .block _ _ _ _ program inverse => optionTexts program ++ optionTexts inverse
  | .rawBlock _ _ _ program inverse => optionTexts program ++ optionTexts inverse
  | .partialBlock _ _ _ _ _ _ program => optionTexts program
  | .content content => [content.value]
  | .mustache .. | .partialCall .. | .comment .. => []

def listTexts : List Node → List Str
  | [] => []
  | node :: rest => node.texts ++ listTexts rest

def bodyTexts : Option (List Node) → List Str
  | none => []
  | some nodes => listTexts nodes

def ProgramTree.texts : ProgramTree → List Str
  | .mk _ _ statements _ _ _ => bodyTexts statements

def optionTexts : Option ProgramTree → List Str
  | none => []
  | some program => program.texts

end

/-- The characters that can be seen -/
def inked (text : Str) : Str := text.filter fun char => ¬char ∈ blanks true

mutual

theorem Node.Alters.ink {node after : Node} (alters : node.Alters Content.Trimmed after) :
    node.texts.map inked = after.texts.map inked := by
  cases alters with
  | block inner outer =>
    rw [Node.texts, Node.texts, List.map_append, List.map_append, inner.ink, outer.ink]
  | rawBlock inner outer =>
    rw [Node.texts, Node.texts, List.map_append, List.map_append, inner.ink, outer.ink]
  | mustache | partialCall | partialBlock | comment => rfl
  | content related => exact congrArg (fun text => [text]) related.2.2.visible

theorem AltersList.ink {nodes after : List Node} (alters : AltersList Content.Trimmed nodes after) :
    (listTexts nodes).map inked = (listTexts after).map inked := by
  cases alters with
  | nil => rfl
  | cons here later =>
    rw [listTexts, listTexts, List.map_append, List.map_append, here.ink, later.ink]

theorem AltersStatements.ink {statements after : Option (List Node)}
    (alters : AltersStatements Content.Trimmed statements after) :
    (bodyTexts statements).map inked = (bodyTexts after).map inked := by
  cases alters with
  | none => rfl
  | some nodes => exact nodes.ink

theorem ProgramTree.Alters.ink {program after : ProgramTree}
    (alters : program.Alters Content.Trimmed after) :
    program.texts.map inked = after.texts.map inked := by
  cases alters with
  | mk inside => exact inside.ink

theorem AltersOption.ink {program after : Option ProgramTree}
    (alters : AltersOption Content.Trimmed program after) :
    (optionTexts program).map inked = (optionTexts after).map inked := by
  cases alters with
  | none => rfl
  | some program => exact program.ink

end

theorem ProgramTree.texts_withBlockParams (program : ProgramTree)
    (blockParam1 blockParam2 : Option Str) :
    (program.withBlockParams blockParam1 blockParam2).texts = program.texts := by
  cases program
  rfl

theorem ProgramTree.texts_closeFirst (strip : StripFlags) (program : ProgramTree) :
    (program.closeFirst strip).texts = program.texts := by
  obtain ⟨own, loc, statements, blockParam1, blockParam2, chained⟩ := program
  unfold ProgramTree.closeFirst
  split
  · rename_i same
    cases same
    rfl
  · rfl

end Trees

section Building

variable {hash : StringHash}

theorem blockInverse_texts {isDecorator : Bool} {inverse : Option Inverse} {close : Option Closing}
    {loc : LocInfo} {other : Option ProgramTree}
    (built : blockInverse isDecorator inverse close loc = .ok other) :
    optionTexts other = optionTexts (inverse.map (·.program)) := by
  unfold blockInverse at built
  cases inverse with
  | none =>
    cases built
    rfl
  | some inner =>
    dsimp only at built
    split at built
    · cases built
    · split at built
      · cases close with
        | none => cases built
        | some close =>
          cases built
          exact inner.program.texts_closeFirst close.strip
      · cases built
        rfl

/-- A block has the text of its bodies, in either order. -/
theorem prepareBlock_texts {opening : Opening} {program : Option ProgramTree} {inverse : Option Inverse}
    {close : Option Closing} {inverted : Bool} {loc : LocInfo} {node : Node}
    (built : prepareBlock hash opening program inverse close inverted loc = .ok node) :
    node.texts.Perm (optionTexts program ++ optionTexts (inverse.map (·.program))) := by
  unfold prepareBlock at built
  obtain ⟨_, -, built⟩ := bind_ok built
  obtain ⟨other, made, built⟩ := bind_ok built
  have inner : ((program.getD emptyProgram).withBlockParams opening.blockParam1
      opening.blockParam2).texts = optionTexts program := by
    rw [ProgramTree.texts_withBlockParams]
    cases program <;> rfl
  cases inverted with
  | true =>
    -- an inverted block shows its inverse first
    cases built
    rw [if_pos rfl, Node.texts, blockInverse_texts made, optionTexts, inner]
    exact List.perm_append_comm
  | false =>
    cases built
    rw [if_neg (by simp), Node.texts, blockInverse_texts made, optionTexts, inner]

mutual

/-- The action of a statement keeps its texts. -/
theorem buildStatement_texts (statement : StatementSyntax) {node : Node}
    (built : buildStatement hash statement = .ok node) : node.texts.Perm statement.pieces := by
  cases statement with
  | mustache unescaped opening call closing =>
    obtain ⟨name, params, pairs⟩ := call
    rw [buildStatement] at built
    obtain ⟨_, -, built⟩ := bind_ok built
    obtain ⟨_, -, built⟩ := bind_ok built
    obtain ⟨_, -, built⟩ := bind_ok built
    cases built
    exact .nil
  | block inverted opening program inverse closing =>
    rw [buildStatement] at built
    obtain ⟨opening', -, built⟩ := bind_ok built
    obtain ⟨program', made, built⟩ := bind_ok built
    obtain ⟨inverse', made', built⟩ := bind_ok built
    obtain ⟨path, -, built⟩ := bind_ok built
    rw [StatementSyntax.pieces]
    exact (prepareBlock_texts built).trans
      ((buildProgramOption_texts program made).append (buildInverseOption_texts inverse made'))
  | rawBlock opening contents closing =>
    rw [buildStatement] at built
    obtain ⟨opening', -, built⟩ := bind_ok built
    obtain ⟨_, -, built⟩ := bind_ok built
    split at built
    · cases built
      exact .refl _
    · cases built
  | partialCall tag =>
    rw [buildStatement] at built
    obtain ⟨_, -, built⟩ := bind_ok built
    obtain ⟨_, -, built⟩ := bind_ok built
    obtain ⟨_, -, built⟩ := bind_ok built
    cases built
    exact .nil
  | partialBlock tag program closing =>
    rw [buildStatement] at built
    obtain ⟨_, -, built⟩ := bind_ok built
    obtain ⟨_, -, built⟩ := bind_ok built
    obtain ⟨_, -, built⟩ := bind_ok built
    obtain ⟨program', made, built⟩ := bind_ok built
    obtain ⟨_, -, built⟩ := bind_ok built
    obtain ⟨_, -, built⟩ := bind_ok built
    cases built
    have inner : optionTexts (some (program'.getD emptyProgram)) = optionTexts program' := by
      cases program' <;> rfl
    rw [Node.texts, inner, StatementSyntax.pieces]
    exact buildProgramOption_texts program made
  | content first rest =>
    rw [buildStatement] at built
    cases built
    exact .refl _
  | comment isLong value =>
    rw [buildStatement] at built
    unfold commentNode at built
    split at built
    · cases built
      exact .nil
    · cases built

theorem buildStatements_texts (statements : List StatementSyntax) {nodes : List Node}
    (built : buildStatements hash statements = .ok nodes) :
    (listTexts nodes).Perm (statementPieces statements) := by
  cases statements with
  | nil =>
    cases built
    exact .nil
  | cons statement rest =>
    rw [buildStatements] at built
    obtain ⟨node, made, built⟩ := bind_ok built
    obtain ⟨nodes, made', built⟩ := bind_ok built
    cases built
    rw [listTexts, statementPieces]
    exact (buildStatement_texts statement made).append (buildStatements_texts rest made')

theorem buildProgram_texts (source : ProgramSyntax) {program : ProgramTree}
    (built : buildProgram hash source = .ok program) : program.texts.Perm source.pieces := by
  cases source with
  | mk first rest =>
    rw [buildProgram] at built
    obtain ⟨node, made, built⟩ := bind_ok built
    obtain ⟨nodes, made', built⟩ := bind_ok built
    cases built
    rw [ProgramTree.texts, bodyTexts, listTexts, ProgramSyntax.pieces]
    exact (buildStatement_texts first made).append (buildStatements_texts rest made')

theorem buildProgramOption_texts (source : Option ProgramSyntax) {program : Option ProgramTree}
    (built : buildProgramOption hash source = .ok program) :
    (optionTexts program).Perm (programOptionPieces source) := by
  cases source with
  | none =>
    cases built
    exact .nil
  | some source =>
    rw [buildProgramOption] at built
    obtain ⟨program, made, built⟩ := bind_ok built
    cases built
    rw [optionTexts, programOptionPieces]
    exact buildProgram_texts source made

theorem buildInverse_texts (source : InverseSyntax) {inverse : Inverse}
    (built : buildInverse hash source = .ok inverse) :
    inverse.program.texts.Perm source.pieces := by
  cases source with
  | chain tag program rest =>
    rw [buildInverse] at built
    obtain ⟨opening, -, built⟩ := bind_ok built
    obtain ⟨program', made, built⟩ := bind_ok built
    obtain ⟨inverse', made', built⟩ := bind_ok built
    unfold prepareInverseChain at built
    obtain ⟨block, blocked, built⟩ := bind_ok built
    cases built
    rw [InverseSyntax.pieces, ProgramTree.texts, bodyTexts, listTexts, listTexts, List.append_nil]
    exact (prepareBlock_texts blocked).trans
      ((buildProgramOption_texts program made).append (buildInverseOption_texts rest made'))
  | inverse tag program =>
    rw [buildInverse] at built
    obtain ⟨program', made, built⟩ := bind_ok built
    cases built
    have inner : (program'.getD emptyProgram).texts = optionTexts program' := by
      cases program' <;> rfl
    rw [InverseSyntax.pieces, inner]
    exact buildProgramOption_texts program made

theorem buildInverseOption_texts (source : Option InverseSyntax) {inverse : Option Inverse}
    (built : buildInverseOption hash source = .ok inverse) :
    (optionTexts (inverse.map (·.program))).Perm (inverseOptionPieces source) := by
  cases source with
  | none =>
    cases built
    exact .nil
  | some source =>
    rw [buildInverseOption] at built
    obtain ⟨inverse, made, built⟩ := bind_ok built
    cases built
    rw [inverseOptionPieces]
    exact buildInverse_texts source made

end

/-- The texts of a template, which are the contents among its tokens in their order, stand in the
tree after the whitespace pass, each once and with all that can be seen; only the bodies of a block
may have changed places. -/
theorem template_keeps_texts {source : ProgramSyntax} {after : ProgramTree}
    (built : buildTemplate hash source = .ok after) :
    source.pieces.flatten = contentText source.lexemes ∧
      (after.texts.map inked).Perm (source.pieces.map inked) := by
  unfold buildTemplate at built
  obtain ⟨program, made, built⟩ := bind_ok built
  have alters := ProgramTree.accept_trims (trimTemplate_ok.mp built)
  refine ⟨source.flatten_pieces, ?_⟩
  rw [← alters.ink]
  exact (buildProgram_texts source made).map inked

/-- An inverted block with an inverse -/
def turnedBlock : ProgramSyntax :=
  .mk (.block true ⟨⟨bytes "\x7b\x7b^", .zero⟩, .mk (.path ⟨⟨bytes "x", .zero⟩, []⟩) [] [], none,
    ⟨bytes "\x7d\x7d", .zero⟩⟩ (some (.mk (.content ⟨bytes " a", .zero⟩ []) []))
    (some (.inverse ⟨bytes "\x7b\x7b^\x7d\x7d", .zero⟩ (some (.mk (.content ⟨bytes "b", .zero⟩ []) []))))
    ⟨⟨bytes "\x7b\x7b/", .zero⟩, .path ⟨⟨bytes "x", .zero⟩, []⟩, ⟨bytes "\x7d\x7d", .zero⟩⟩) []

theorem template_keeps_texts_turned : ∃ after, buildTemplate (fun _ => 0) turnedBlock = .ok after ∧
    (after.texts.map inked).Perm [bytes "a", bytes "b"] := by
  obtain ⟨after, built⟩ : ∃ after, buildTemplate (fun _ => 0) turnedBlock = .ok after := ⟨_, rfl⟩
  exact ⟨after, built, (template_keeps_texts built).2⟩

end Building

end HandlebarsC.Parser
