import HandlebarsC.Parser.Lexer
import HandlebarsC.Parser.Path

/-!
The grammar of `handlebars.y`: its parse trees, with the texts and the locations of their tokens. A
list that a production may leave out is empty in a tree. The token `""` of `program` is one that the
lexer never returns.
-/

namespace HandlebarsC.Parser

/-- The value and the location of a token -/
structure Terminal where
  text : Str
  loc : LocInfo
  deriving DecidableEq

/-- A token for the parser -/
structure Lexeme where
  token : TokenType
  text : Str
  loc : LocInfo
  deriving DecidableEq

def Terminal.as (terminal : Terminal) (token : TokenType) : Lexeme :=
  ⟨token, terminal.text, terminal.loc⟩

/-- `@$`, by `YYLLOC_DEFAULT`: from the first to the last of the tokens -/
def span (lexemes : List Lexeme) : LocInfo :=
  match lexemes.head?, lexemes.getLast? with
  | some first, some last =>
    ⟨first.loc.firstLine, first.loc.firstColumn, last.loc.lastLine, last.loc.lastColumn⟩
  | _, _ => LocInfo.zero

section Names

/-- `path_segments` -/
structure PathSyntax where
  first : Terminal
  rest : List (Terminal × Terminal)
  deriving DecidableEq

/-- The tokens of `helper_name` that are literals -/
inductive LiteralToken where
  | string
  | singleString
  | number
  | boolean
  | undefined
  | nul
  deriving DecidableEq

/-- `helper_name` -/
inductive NameSyntax where
  | path (segments : PathSyntax)
  | dataName (sign : Terminal) (segments : PathSyntax)
  | literal (kind : LiteralToken) (value : Terminal)
  deriving DecidableEq

def LiteralToken.token : LiteralToken → TokenType
  | string => .string
  | singleString => .singleString
  | number => .number
  | boolean => .boolean
  | undefined => .undefined
  | nul => .nul

def PathSyntax.lexemes (path : PathSyntax) : List Lexeme :=
  path.first.as .id :: path.rest.flatMap fun (separator, id) => [separator.as .sep, id.as .id]

def NameSyntax.lexemes : NameSyntax → List Lexeme
  | .path segments => segments.lexemes
  | .dataName sign segments => sign.as .data :: segments.lexemes
  | .literal kind value => [value.as kind.token]

end Names

section Calls

mutual

/-- `param`, which is also `partial_name` -/
inductive ParamSyntax where
  | name (name : NameSyntax)
  | sexpr (opening : Terminal) (call : CallSyntax) (closing : Terminal)

/-- `intermediate3` -/
inductive CallSyntax where
  | mk (name : NameSyntax) (params : List ParamSyntax) (pairs : List PairSyntax)

/-- `hash_pair` -/
inductive PairSyntax where
  | mk (key equals : Terminal) (value : ParamSyntax)

end

mutual

def ParamSyntax.lexemes : ParamSyntax → List Lexeme
  | .name name => name.lexemes
  | .sexpr opening call closing =>
    opening.as .openSexpr :: (call.lexemes ++ [closing.as .closeSexpr])

def CallSyntax.lexemes : CallSyntax → List Lexeme
  | .mk name params pairs => name.lexemes ++ paramLexemes params ++ pairLexemes pairs

def PairSyntax.lexemes : PairSyntax → List Lexeme
  | .mk key equals value => key.as .id :: equals.as .equals :: value.lexemes

def paramLexemes : List ParamSyntax → List Lexeme
  | [] => []
  | param :: rest => param.lexemes ++ paramLexemes rest

def pairLexemes : List PairSyntax → List Lexeme
  | [] => []
  | pair :: rest => pair.lexemes ++ pairLexemes rest

end

end Calls

section Tags

/-- `block_params` -/
structure BlockParamsSyntax where
  opening : Terminal
  first : Terminal
  second : Option Terminal
  closing : Terminal

/-- A tag around an `intermediate4`, which opens a block -/
structure OpenSyntax where
  opening : Terminal
  call : CallSyntax
  blockParams : Option BlockParamsSyntax
  closing : Terminal

/-- `close_block` -/
structure CloseSyntax where
  opening : Terminal
  name : NameSyntax
  closing : Terminal

/-- A tag around the name of a partial -/
structure PartialSyntax where
  opening : Terminal
  name : ParamSyntax
  params : List ParamSyntax
  pairs : List PairSyntax
  closing : Terminal

def BlockParamsSyntax.lexemes (blockParams : BlockParamsSyntax) : List Lexeme :=
  blockParams.opening.as .openBlockParams :: blockParams.first.as .id ::
    ((blockParams.second.toList.map (·.as .id)) ++ [blockParams.closing.as .closeBlockParams])

/-- The tokens of a tag that opens and closes with these -/
def OpenSyntax.lexemes (opens closes : TokenType) (tag : OpenSyntax) : List Lexeme :=
  tag.opening.as opens :: (tag.call.lexemes ++
    (tag.blockParams.toList.flatMap BlockParamsSyntax.lexemes ++ [tag.closing.as closes]))

def CloseSyntax.lexemes (tag : CloseSyntax) : List Lexeme :=
  tag.opening.as .openEndblock :: (tag.name.lexemes ++ [tag.closing.as .close])

def PartialSyntax.lexemes (opens : TokenType) (tag : PartialSyntax) : List Lexeme :=
  tag.opening.as opens ::
    (tag.name.lexemes ++ paramLexemes tag.params ++ pairLexemes tag.pairs ++ [tag.closing.as .close])

end Tags

section Statements

mutual

/-- `statement`: the two kinds of mustaches, blocks and comments differ in their tokens. -/
inductive StatementSyntax where
  | mustache (unescaped : Bool) (opening : Terminal) (call : CallSyntax) (closing : Terminal)
  | block (inverted : Bool) (opening : OpenSyntax) (program : Option ProgramSyntax)
      (inverse : Option InverseSyntax) (closing : CloseSyntax)
  | rawBlock (opening : OpenSyntax) (contents : List Terminal) (closing : Terminal)
  | partialCall (tag : PartialSyntax)
  | partialBlock (tag : PartialSyntax) (program : Option ProgramSyntax) (closing : CloseSyntax)
  | content (first : Terminal) (rest : List Terminal)
  | comment (isLong : Bool) (value : Terminal)

/-- `program` -/
inductive ProgramSyntax where
  | mk (first : StatementSyntax) (rest : List StatementSyntax)

/-- `inverse_chain` -/
inductive InverseSyntax where
  | chain (tag : OpenSyntax) (program : Option ProgramSyntax) (inverse : Option InverseSyntax)
  | inverse (tag : Terminal) (program : Option ProgramSyntax)

end

/-- `content` -/
def contentLexemes (contents : List Terminal) : List Lexeme := contents.map (·.as .content)

mutual

def StatementSyntax.lexemes : StatementSyntax → List Lexeme
  | .mustache unescaped opening call closing =>
    opening.as (if unescaped then .openUnescaped else .open_) ::
      (call.lexemes ++ [closing.as (if unescaped then .closeUnescaped else .close)])
  | .block inverted opening program inverse closing =>
    opening.lexemes (if inverted then .openInverse else .openBlock) .close ++
      (programOptionLexemes program ++ (inverseOptionLexemes inverse ++ closing.lexemes))
  | .rawBlock opening contents closing =>
    opening.lexemes .openRawBlock .closeRawBlock ++
      (contentLexemes contents ++ [closing.as .endRawBlock])
  | .partialCall tag => tag.lexemes .openPartial
  | .partialBlock tag program closing =>
    tag.lexemes .openPartialBlock ++ (programOptionLexemes program ++ closing.lexemes)
  | .content first rest => contentLexemes (first :: rest)
  | .comment isLong value => [value.as (if isLong then .longComment else .comment)]

def statementLexemes : List StatementSyntax → List Lexeme
  | [] => []
  | statement :: rest => statement.lexemes ++ statementLexemes rest

def ProgramSyntax.lexemes : ProgramSyntax → List Lexeme
  | .mk first rest => first.lexemes ++ statementLexemes rest

def programOptionLexemes : Option ProgramSyntax → List Lexeme
  | none => []
  | some program => program.lexemes

def InverseSyntax.lexemes : InverseSyntax → List Lexeme
  | .chain tag program inverse =>
    tag.lexemes .openInverseChain .close ++
      (programOptionLexemes program ++ inverseOptionLexemes inverse)
  | .inverse tag program => tag.as .inverse :: programOptionLexemes program

def inverseOptionLexemes : Option InverseSyntax → List Lexeme
  | none => []
  | some inverse => inverse.lexemes

end

end Statements

end HandlebarsC.Parser
