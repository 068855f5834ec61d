import HandlebarsC.Parser.Nodes
import HandlebarsC.Parser.Scanners
import HandlebarsC.Strings.Edit

/-!
`handlebars_whitespace.c`: the pass that trims the texts around tags, at strip marks and around
tags that stand alone on a line. There is no result where it reads a list that is not there.
-/

namespace HandlebarsC.Parser

open Strings (Object)

section Siblings

/-- The answer of a scanner for a terminated text, which it always reads to an end. -/
def scanned (scanner : Str → Bool → Option (Bool × Str)) (original : Str) (fallback : Bool) : Bool :=
  match scanner (original ++ [0]) fallback with
  | some (answer, _) => answer
  | none => fallback

/-- Whether the siblings on one side of a tag, the nearest first, are blank up to a line end, or
there are none in the root. -/
def isWhitespace (scanner : Str → Bool → Option (Bool × Str)) (siblings : List Node)
    (isRoot : Bool) : Bool :=
  match siblings with
  | [] => isRoot
  | .content text :: rest => scanned scanner text.original (rest.isEmpty && isRoot)
  | _ :: _ => false

/-- `handlebars_whitespace_is_next_whitespace`, from the next sibling on -/
def isNextWhitespace (behind : List Node) (isRoot : Bool) : Bool :=
  isWhitespace Scanner.nextWhitespace behind isRoot

/-- `handlebars_whitespace_is_prev_whitespace`, from the previous sibling back -/
def isPrevWhitespace (before : List Node) (isRoot : Bool) : Bool :=
  isWhitespace Scanner.prevWhitespace before isRoot

/-- `handlebars_whitespace_is_next_whitespace(statements, NULL, 0)` -/
def startsBlank : Option (List Node) → Bool
  | none => false
  | some nodes => isNextWhitespace nodes false

/-- `handlebars_whitespace_is_prev_whitespace(statements, NULL, 0)` -/
def endsBlank : Option (List Node) → Bool
  | none => false
  | some nodes => isPrevWhitespace nodes.reverse false

/-- All blanks, or those of a line. -/
def blanks (multiple : Bool) : Str := if multiple then [32, 11, 9, 13, 10] else [32, 9]

/-- The text without its first character if it is this one -/
def dropFirst (char : UInt8) (text : Str) : Str := if text.head? = some char then text.tail else text

/-- What is left of a content in front of a tag. -/
def trimLeft (multiple : Bool) (value : Str) : Str := value.rdropWhile (blanks multiple).contains

/-- What is left of a content behind a tag: the line end goes with the blanks. -/
def trimRight (multiple : Bool) (value : Str) : Str :=
  let rest := value.dropWhile (Object.isTrimmed (blanks multiple))
  if multiple then rest else dropFirst 10 (dropFirst 13 rest)

/-- The content with another value, with the flag that says whether it has become shorter. -/
def Content.stripped (content : Content) (flag : StripFlags) (value : Str) : Content where
  strip :=
    (if content.value.length = value.length then content.strip &&& ~~~flag else content.strip ||| flag)
      ||| .set
  loc := content.loc
  value := value
  original := content.original

/-- The nearest sibling is trimmed once at most, but for strip marks. -/
def omitNearest (flag : StripFlags) (trim : Bool → Str → Str) (multiple : Bool) :
    List Node → List Node × Bool
  | .content text :: rest =>
    if !multiple && text.strip.has flag then (.content text :: rest, false)
    else
      let text := text.stripped flag (trim multiple text.value)
      (.content text :: rest, text.strip.has flag)
  | nodes => (nodes, false)

/-- `handlebars_whitespace_omit_left`, from the previous sibling back -/
def omitLeft : Bool → List Node → List Node × Bool := omitNearest .leftStripped trimLeft

/-- `handlebars_whitespace_omit_right`, from the next sibling on -/
def omitRight : Bool → List Node → List Node × Bool := omitNearest .rightStripped trimRight

end Siblings

section Programs

/-- `handlebars_whitespace_omit_left(statements, NULL, multiple)` -/
def ProgramTree.omitLast (program : ProgramTree) (multiple : Bool) : Option ProgramTree :=
  program.statements.map fun nodes =>
    program.withStatements (some (omitLeft multiple nodes.reverse).1.reverse)

/-- `handlebars_whitespace_omit_right(statements, NULL, multiple)` -/
def ProgramTree.omitFirst (program : ProgramTree) (multiple : Bool) : Option ProgramTree :=
  program.statements.map fun nodes => program.withStatements (some (omitRight multiple nodes).1)

/-- What the nearest text ends with behind its last character that is no blank (the loop over
`start`). -/
def indentOf (original : Str) : Option Str :=
  let line := (original.takeWhile (· != 0)).rtakeWhile (blanks false).contains
  if line.isEmpty then none else some line

/-- The indent of a partial that stands alone on its line. -/
def Node.indented (before : List Node) : Node → Node
  | .partialCall strip loc name params hash indent =>
    match before with
    | .content text :: _ =>
      .partialCall strip loc name params hash ((indentOf text.original).or indent)
    | _ => .partialCall strip loc name params hash indent
  | node => node

/-- The first or the second program of a block, where it has one, is trimmed. -/
def trimOne (trim : ProgramTree → Option ProgramTree) (first second : Option ProgramTree) :
    Option (Option ProgramTree × Option ProgramTree) :=
  match first, second with
  | some program, _ => do
    let program ← trim program
    pure (some program, second)
  | none, some program => do
    let program ← trim program
    pure (none, some program)
  | none, none => some (none, none)

/-- The start of a block whose open tag stands alone. -/
def Node.opened : Node → Option Node
  | .block strip call marks isDecorator program inverse => do
    let (program, inverse) ← trimOne (·.omitFirst false) program inverse
    pure (.block strip call marks isDecorator program inverse)
  | node => some node

/-- The end of a block whose close tag stands alone. -/
def Node.closed : Node → Option Node
  | .block strip call marks isDecorator program inverse => do
    let (inverse, program) ← trimOne (·.omitLast false) inverse program
    pure (.block strip call marks isDecorator program inverse)
  | node => some node

/-- A statement between its siblings, those before it from the nearest on. -/
structure Place where
  before : List Node
  current : Node
  behind : List Node

namespace Place

variable (place : Place)

def omitLeft (multiple : Bool) : Place :=
  { place with before := (Parser.omitLeft multiple place.before).1 }

def omitRight (multiple : Bool) : Place :=
  { place with behind := (Parser.omitRight multiple place.behind).1 }

/-- A tag that stands alone on its line. -/
def inlined : Place :=
  let place := place.omitRight false
  let (before, stripped) := Parser.omitLeft false place.before
  { place with
    before := before
    current := if stripped then place.current.indented before else place.current }

def opened : Option Place := do
  let current ← place.current.opened
  pure ({ place with current := current }.omitLeft false)

def closed : Option Place := do
  let place := place.omitRight false
  let current ← place.current.closed
  pure { place with current := current }

/-- What the flags of a tag trim around it, by the blanks that were next to it. -/
def around (strip : StripFlags) (isPrev isNext : Bool) : Option Place :=
  let place := if strip.has .right then place.omitRight true else place
  let place := if strip.has .left then place.omitLeft true else place
  let place := if strip.has .inlineStandalone && isPrev && isNext then place.inlined else place
  (if strip.has .openStandalone && isPrev then place.opened else some place).bind fun place =>
    if strip.has .closeStandalone && isNext then place.closed else some place

/-- The body of the loop of `handlebars_whitespace_accept_program` behind
`handlebars_whitespace_accept` -/
def trimmed (isRoot : Bool) : Option Place :=
  if !place.current.strip.has .set then some place
  else
    place.around place.current.strip (isPrevWhitespace place.before isRoot)
      (isNextWhitespace place.behind isRoot)

end Place

/-- The loop of `handlebars_whitespace_accept_program`, over statements that are accepted. -/
def trimStatements (isRoot : Bool) (before : List Node) : Nat → List Node → Option (List Node)
  | 0, rest => some (before.reverse ++ rest)
  | _ + 1, [] => some before.reverse
  | count + 1, current :: behind => do
    let place ← Place.trimmed ⟨before, current, behind⟩ isRoot
    trimStatements isRoot (place.current :: place.before) count place.behind

/-- `_handlebars_whitespace_get_program(inverse, 1)` -/
def ProgramTree.firstProgram (inverse : ProgramTree) : Option ProgramTree :=
  match inverse.statements with
  | some (.block _ _ _ _ program _ :: _) | some (.rawBlock _ _ _ program _ :: _) => program
  | _ => none

/-- The program that `_handlebars_whitespace_get_program` finds is replaced. -/
def ProgramTree.withFirstProgram (inverse : ProgramTree) (program : ProgramTree) : ProgramTree :=
  match inverse.statements with
  | some (.block strip call marks isDecorator _ other :: rest) =>
    inverse.withStatements
      (some (.block strip call marks isDecorator (some program) other :: rest))
  | some (.rawBlock strip call marks _ other :: rest) =>
    inverse.withStatements (some (.rawBlock strip call marks (some program) other :: rest))
  | _ => inverse

end Programs

section Blocks

-- `handlebars_whitespace_accept_raw_block` differs from `handlebars_whitespace_accept_block` in
-- where it looks for the inverse program.
variable (raw : Bool)

/-- `firstInverse`: a chained inverse begins in the program of its first block. -/
def ProgramTree.firstInverse (inverse : ProgramTree) : Option ProgramTree :=
  if inverse.chained then inverse.firstProgram else if raw then none else some inverse

/-- `strip`, from the programs before anything is trimmed -/
def blockStrip (marks : BlockMarks) (program inverse : Option ProgramTree) : StripFlags :=
  let first := program.or inverse
  let second := if program.isSome then inverse else none
  let last := (if raw then second else second.bind (·.firstInverse raw)).or first
  (marks.openStrip &&& .left) ||| (marks.closeStrip &&& .right) |||
    (if first.any (startsBlank ·.statements) then .openStandalone else 0) |||
    (if last.any (endsBlank ·.statements) then .closeStandalone else 0) ||| .set

/-- The texts around an `else` that stands alone on its line. -/
def trimElse (program inverse : ProgramTree) : Option (ProgramTree × ProgramTree) :=
  match inverse.firstInverse raw with
  | none => some (program, inverse)
  | some first =>
    if endsBlank program.statements && startsBlank first.statements then do
      let program ← program.omitLast false
      let first ← first.omitFirst false
      pure (program, if inverse.chained then inverse.withFirstProgram first else first)
    else some (program, inverse)

def trimAt (strip flag : StripFlags) (trim : ProgramTree → Option ProgramTree)
    (program : ProgramTree) : Option ProgramTree :=
  if strip.has flag then trim program else some program

/-- The program of a block without an inverse one. -/
def trimOnly (marks : BlockMarks) (program : ProgramTree) : Option ProgramTree := do
  let program ← trimAt marks.openStrip .right (·.omitFirst true) program
  trimAt marks.closeStrip .left (·.omitLast true) program

def trimBoth (marks : BlockMarks) (program inverse : ProgramTree) :
    Option (ProgramTree × ProgramTree) := do
  let program ← trimAt marks.openStrip .right (·.omitFirst true) program
  let program ← trimAt marks.inverseStrip .left (·.omitLast true) program
  let inverse ← trimAt marks.inverseStrip .right (·.omitFirst true) inverse
  let inverse ← trimAt marks.closeStrip .left (·.omitLast true) inverse
  trimElse raw program inverse

/-- What `handlebars_whitespace_accept_block` trims inside of a block. -/
def trimBlock (marks : BlockMarks) :
    Option ProgramTree → Option ProgramTree → Option (Option ProgramTree × Option ProgramTree)
  | some program, some inverse => do
    let (program, inverse) ← trimBoth raw marks program inverse
    pure (some program, some inverse)
  | some program, none => do
    let program ← trimOnly marks program
    pure (some program, none)
  | none, some inverse => do
    let inverse ← trimOnly marks inverse
    pure (none, some inverse)
  | none, none => some (none, none)

end Blocks

section Visits

/-- `handlebars_whitespace_accept_generic` -/
def acceptGeneric (strip : StripFlags) : StripFlags := strip ||| (.set ||| .inlineStandalone)

/-- `handlebars_whitespace_accept_mustache` -/
def acceptMustache (strip : StripFlags) (path : HelperName) : StripFlags :=
  if path.stringModeValue = some (bytes "hbsc_set_delimiters") then
    strip ||| (.set ||| .inlineStandalone)
  else strip

mutual

/-- `handlebars_whitespace_accept` of a statement -/
def Node.accept : Node → Option Node
  | .block _ call marks isDecorator program inverse => do
    let program ← acceptOption program
    let inverse ← acceptOption inverse
    let strip := blockStrip false marks program inverse
    let (program, inverse) ← trimBlock false marks program inverse
    pure (.block strip call marks isDecorator program inverse)
  | .rawBlock _ call marks program inverse => do
    let program ← acceptOption program
    let inverse ← acceptOption inverse
    let strip := blockStrip true marks program inverse
    let (program, inverse) ← trimBlock true marks program inverse
    pure (.rawBlock strip call marks program inverse)
  | .mustache strip call unescaped isDecorator =>
    some (.mustache (acceptMustache strip call.path) call unescaped isDecorator)
  | .partialCall strip loc name params hash indent =>
    some (.partialCall (acceptGeneric strip) loc name params hash indent)
  | .partialBlock strip loc name params hash marks program =>
    some (.partialBlock strip loc name params hash marks program)
  | .content text => some (.content text)
  | .comment strip loc value isLong => some (.comment (acceptGeneric strip) loc value isLong)

def acceptList : List Node → Option (List Node)
  | [] => some []
  | node :: rest => do
    let node ← node.accept
    let rest ← acceptList rest
    pure (node :: rest)

/-- The statements of a program. A visit changes nothing but its own statement, so that all visits
can come before all trims (`acceptEach_eq`). -/
def acceptStatements (isRoot : Bool) : Option (List Node) → Option (Option (List Node))
  | none => some none
  | some nodes => do
    let nodes ← acceptList nodes
    let nodes ← trimStatements isRoot [] nodes.length nodes
    pure (some nodes)

/-- `handlebars_whitespace_accept_program`: the root is the first program that is visited. -/
def ProgramTree.accept (isRoot : Bool) : ProgramTree → Option ProgramTree
  | .mk strip loc statements blockParam1 blockParam2 chained => do
    let statements ← acceptStatements isRoot statements
    pure (.mk strip loc statements blockParam1 blockParam2 chained)

def acceptOption : Option ProgramTree → Option (Option ProgramTree)
  | none => some none
  | some program => do
    let program ← program.accept false
    pure (some program)

end

/-- The loop of `handlebars_whitespace_accept_program` as it runs: each statement is visited just
before it is trimmed. -/
def acceptEach (accept : Node → Option Node) (isRoot : Bool) (before : List Node) :
    Nat → List Node → Option (List Node)
  | 0, rest => some (before.reverse ++ rest)
  | _ + 1, [] => some before.reverse
  | count + 1, current :: behind => do
    let current ← accept current
    let place ← Place.trimmed ⟨before, current, behind⟩ isRoot
    acceptEach accept isRoot (place.current :: place.before) count place.behind

end Visits

end HandlebarsC.Parser
