import HandlebarsC.Foundation.Codes
import HandlebarsC.Parser.Grammar

/-!
The grammar is unambiguous: a template has one parse tree, where adjacent contents are read as one,
which the precedence of `CONTENT` decides.
-/

namespace HandlebarsC.Parser

open Codes

/-- The first token -/
def head (lexemes : List Lexeme) : Option TokenType := lexemes.head?.map (·.token)

@[simp] theorem head_nil : head [] = none := rfl

@[simp] theorem head_cons (lexeme : Lexeme) (rest : List Lexeme) :
    head (lexeme :: rest) = some lexeme.token := rfl

@[simp] theorem as_token (terminal : Terminal) (token : TokenType) :
    (terminal.as token).token = token := rfl

theorem as_inj {first second : Terminal} {token other : TokenType}
    (same : first.as token = second.as other) : first = second ∧ token = other := by
  cases first
  cases second
  cases same
  exact ⟨rfl, rfl⟩

section Names

/-- The tokens a name starts with -/
def nameStarts : List TokenType :=
  [.id, .data, .string, .singleString, .number, .boolean, .undefined, .nul]

/-- No separator follows. -/
def NoSep (rest : List Lexeme) : Prop := head rest ≠ some .sep

theorem LiteralToken.token_inj {kind other : LiteralToken} (same : kind.token = other.token) :
    kind = other := by
  cases kind <;> cases other <;> first | rfl | cases same

theorem LiteralToken.token_cases (kind : LiteralToken) :
    kind.token ∈ nameStarts ∧ kind.token ≠ .id ∧ kind.token ≠ .data ∧ kind.token ≠ .openSexpr := by
  cases kind <;> decide

theorem PathSyntax.told (path : PathSyntax) :
    Told PathSyntax.lexemes (fun _ rest => NoSep rest) path := by
  rintro other rest rest' here there same
  simp only [PathSyntax.lexemes, List.cons_append, List.cons.injEq] at same
  obtain ⟨first, same⟩ := same
  have later := told_free (fun pair : Terminal × Terminal => [pair.1.as .sep, pair.2.as .id]) NoSep
    (fun value => ?_) (fun value rest => ?_) here there same
  · obtain ⟨same, behind⟩ := later
    refine ⟨?_, behind⟩
    cases path
    cases other
    cases (as_inj first).1
    cases same
    rfl
  · rintro ⟨separator, id⟩ rest rest' - - same
    simp only [List.cons_append, List.cons.injEq, List.nil_append] at same
    obtain ⟨first, second, behind⟩ := same
    exact ⟨Prod.ext (as_inj first).1 (as_inj second).1, behind⟩
  · simp [NoSep]

theorem NameSyntax.head_mem (name : NameSyntax) (rest : List Lexeme) :
    ∃ token ∈ nameStarts, head (name.lexemes ++ rest) = some token := by
  cases name with
  | path segments => exact ⟨.id, by decide, rfl⟩
  | dataName sign segments => exact ⟨.data, by decide, rfl⟩
  | literal kind value => exact ⟨kind.token, kind.token_cases.1, rfl⟩

theorem NameSyntax.told (name : NameSyntax) :
    Told NameSyntax.lexemes (fun _ rest => NoSep rest) name := by
  intro other rest rest' here there same
  have heads := congrArg head same
  cases name with
  | path segments =>
    cases other with
    | path others =>
      obtain ⟨rfl, behind⟩ := segments.told others rest rest' here there same
      exact ⟨rfl, behind⟩
    | dataName sign others => simp [NameSyntax.lexemes, PathSyntax.lexemes] at heads
    | literal kind value =>
      simp [NameSyntax.lexemes, PathSyntax.lexemes] at heads
      exact absurd heads.symm kind.token_cases.2.1
  | dataName sign segments =>
    cases other with
    | path others => simp [NameSyntax.lexemes, PathSyntax.lexemes] at heads
    | dataName sign' others =>
      simp only [NameSyntax.lexemes, List.cons_append, List.cons.injEq] at same
      obtain ⟨first, same⟩ := same
      obtain ⟨rfl, behind⟩ := segments.told others rest rest' here there same
      obtain ⟨rfl, -⟩ := as_inj first
      exact ⟨rfl, behind⟩
    | literal kind value =>
      simp [NameSyntax.lexemes] at heads
      exact absurd heads.symm kind.token_cases.2.2.1
  | literal kind value =>
    cases other with
    | path others =>
      simp [NameSyntax.lexemes, PathSyntax.lexemes] at heads
      exact absurd heads kind.token_cases.2.1
    | dataName sign others =>
      simp [NameSyntax.lexemes] at heads
      exact absurd heads kind.token_cases.2.2.1
    | literal kind' value' =>
      simp only [NameSyntax.lexemes, List.cons_append, List.cons.injEq, List.nil_append] at same
      obtain ⟨first, behind⟩ := same
      obtain ⟨rfl, kinds⟩ := as_inj first
      exact ⟨by rw [LiteralToken.token_inj kinds], behind⟩

end Names

section Calls

/-- The tokens that may follow a call -/
def callEnds : List TokenType :=
  [.closeSexpr, .close, .closeUnescaped, .closeRawBlock, .openBlockParams]

theorem callEnds_apart : ∀ token ∈ callEnds,
    token ≠ .sep ∧ token ≠ .equals ∧ token ≠ .id ∧ token ≠ .openSexpr ∧ token ∉ nameStarts := by
  decide

theorem nameStarts_apart : ∀ token ∈ nameStarts,
    token ≠ .sep ∧ token ≠ .equals ∧ token ≠ .openSexpr := by
  decide

/-- A call ends here. -/
def CallEnds (rest : List Lexeme) : Prop := ∃ token ∈ callEnds, head rest = some token

/-- A pair of a hash starts here: its key looks like a path. -/
def PairStarts : List Lexeme → Prop
  | first :: second :: _ => first.token = .id ∧ second.token = .equals
  | _ => False

/-- What may follow a parameter or a value of a hash -/
def ParamFollows (rest : List Lexeme) : Prop := NoSep rest ∧ head rest ≠ some .equals

/-- The parameters end here. -/
def ParamsEnd (rest : List Lexeme) : Prop := CallEnds rest ∨ PairStarts rest

theorem CallEnds.follows {rest : List Lexeme} (ends : CallEnds rest) : ParamFollows rest := by
  obtain ⟨token, member, same⟩ := ends
  obtain ⟨noSep, noEquals, -⟩ := callEnds_apart token member
  unfold ParamFollows NoSep
  rw [same]
  exact ⟨by simpa using noSep, by simpa using noEquals⟩

theorem PairStarts.follows {rest : List Lexeme} (starts : PairStarts rest) : ParamFollows rest := by
  rcases rest with _ | ⟨first, _ | ⟨second, rest⟩⟩
  · cases starts
  · cases starts
  · unfold ParamFollows NoSep
    rw [head_cons, starts.1]
    decide

theorem NameSyntax.not_end (name : NameSyntax) {rest : List Lexeme} (follows : ParamFollows rest) :
    ¬ParamsEnd (name.lexemes ++ rest) := by
  rintro (ends | starts)
  · obtain ⟨token, member, same⟩ := name.head_mem rest
    obtain ⟨token', member', same'⟩ := ends
    cases same.symm.trans same'
    exact (callEnds_apart token member').2.2.2.2 member
  · cases name with
    | path segments =>
      obtain ⟨first, others⟩ := segments
      cases others with
      | nil =>
        simp only [NameSyntax.lexemes, PathSyntax.lexemes, List.flatMap_nil, List.cons_append,
          List.nil_append] at starts
        cases rest with
        | nil => cases starts
        | cons second rest => exact follows.2 (congrArg some starts.2)
      | cons pair others => cases starts.2
    | dataName sign segments => cases starts.1
    | literal kind value =>
      simp only [NameSyntax.lexemes, List.cons_append, List.nil_append] at starts
      cases rest with
      | nil => cases starts
      | cons second rest => exact kind.token_cases.2.1 starts.1

theorem ParamSyntax.not_end (param : ParamSyntax) {rest : List Lexeme} (follows : ParamFollows rest) :
    ¬ParamsEnd (param.lexemes ++ rest) := by
  cases param with
  | name name =>
    rw [ParamSyntax.lexemes]
    exact name.not_end follows
  | sexpr opening call closing =>
    rw [ParamSyntax.lexemes]
    rintro (ends | starts)
    · obtain ⟨token, member, same⟩ := ends
      cases Option.some.inj same
      exact (callEnds_apart _ member).2.2.2.1 rfl
    · rw [List.cons_append] at starts
      revert starts
      cases call.lexemes ++ [closing.as .closeSexpr] ++ rest with
      | nil => exact id
      | cons second rest => exact fun starts => by cases starts.1

theorem ParamSyntax.follows (param : ParamSyntax) (rest : List Lexeme) :
    ParamFollows (param.lexemes ++ rest) := by
  unfold ParamFollows NoSep
  cases param with
  | name name =>
    rw [ParamSyntax.lexemes]
    obtain ⟨token, member, same⟩ := name.head_mem rest
    obtain ⟨noSep, noEquals, -⟩ := nameStarts_apart token member
    rw [same]
    exact ⟨by simpa using noSep, by simpa using noEquals⟩
  | sexpr opening call closing =>
    rw [ParamSyntax.lexemes, List.cons_append, head_cons, as_token]
    exact ⟨by simp, by simp⟩

theorem PairSyntax.starts (pair : PairSyntax) (rest : List Lexeme) :
    PairStarts (pair.lexemes ++ rest) := by
  cases pair
  rw [PairSyntax.lexemes]
  exact ⟨rfl, rfl⟩

theorem PairStarts.not_end {rest : List Lexeme} (starts : PairStarts rest) : ¬CallEnds rest := by
  rintro ⟨token, member, same⟩
  rcases rest with _ | ⟨first, _ | ⟨second, rest⟩⟩
  · cases starts
  · cases starts
  · rw [head_cons, starts.1] at same
    cases same
    revert member
    decide

theorem paramLexemes_eq (params : List ParamSyntax) :
    paramLexemes params = params.flatMap ParamSyntax.lexemes := by
  induction params with
  | nil => rfl
  | cons param rest ih => rw [paramLexemes, List.flatMap_cons, ih]

theorem pairLexemes_eq (pairs : List PairSyntax) :
    pairLexemes pairs = pairs.flatMap PairSyntax.lexemes := by
  induction pairs with
  | nil => rfl
  | cons pair rest ih => rw [pairLexemes, List.flatMap_cons, ih]

/-- A parameter or a value of a hash is told by what follows it. -/
abbrev ParamSyntax.Told (param : ParamSyntax) : Prop :=
  Codes.Told ParamSyntax.lexemes (fun _ rest => ParamFollows rest) param

abbrev PairSyntax.Told (pair : PairSyntax) : Prop :=
  Codes.Told PairSyntax.lexemes (fun _ rest => ParamFollows rest) pair

/-- The end of the parameters, in front of pairs or the end of the call -/
theorem pairs_end {rest : List Lexeme} (ends : CallEnds rest) (pairs : List PairSyntax) :
    ParamsEnd (pairLexemes pairs ++ rest) := by
  cases pairs with
  | nil => exact .inl ends
  | cons pair others =>
    rw [pairLexemes, List.append_assoc]
    exact .inr (pair.starts _)

theorem ParamsEnd.follows {rest : List Lexeme} (ends : ParamsEnd rest) : ParamFollows rest :=
  ends.elim CallEnds.follows PairStarts.follows

/-- The parameters and the hash of a call are told by its end. -/
theorem arguments_told {params params' : List ParamSyntax} {pairs pairs' : List PairSyntax}
    {rest rest' : List Lexeme} (told : ∀ param ∈ params, param.Told)
    (pairsTold : ∀ pair ∈ pairs, pair.Told) (ends : CallEnds rest) (ends' : CallEnds rest')
    (same : paramLexemes params ++ (pairLexemes pairs ++ rest) =
      paramLexemes params' ++ (pairLexemes pairs' ++ rest')) :
    params = params' ∧ pairs = pairs' ∧ rest = rest' := by
  rw [paramLexemes_eq, paramLexemes_eq] at same
  have fits : ∀ {rest : List Lexeme} (params : List ParamSyntax) (pairs : List PairSyntax),
      CallEnds rest → Fits ParamSyntax.lexemes (fun _ rest => ParamFollows rest) ParamsEnd
        (pairLexemes pairs ++ rest) params := fun params pairs ends =>
    fits_of (fun _ _ => id) ParamSyntax.follows (pairs_end ends pairs) (pairs_end ends pairs).follows params
  obtain ⟨rfl, behind⟩ := told_list told (fun param _ => param.not_end) (fits params pairs ends)
    (fits params' pairs' ends') same
  rw [pairLexemes_eq, pairLexemes_eq] at behind
  have fits : ∀ {rest : List Lexeme} (pairs : List PairSyntax), CallEnds rest →
      Fits PairSyntax.lexemes (fun _ rest => ParamFollows rest) CallEnds rest pairs := fun pairs ends =>
    fits_of (fun _ _ => id) (fun pair rest => (pair.starts rest).follows) ends ends.follows pairs
  obtain ⟨rfl, rfl⟩ := told_list pairsTold (fun pair rest _ => (pair.starts rest).not_end)
    (fits pairs ends) (fits pairs' ends') behind
  exact ⟨rfl, rfl, rfl⟩

mutual

theorem ParamSyntax.told (param : ParamSyntax) : param.Told := by
  intro other rest rest' here there same
  cases param with
  | name name =>
    cases other with
    | name name' =>
      simp only [ParamSyntax.lexemes] at same
      obtain ⟨rfl, behind⟩ := name.told name' rest rest' here.1 there.1 same
      exact ⟨rfl, behind⟩
    | sexpr opening call closing =>
      simp only [ParamSyntax.lexemes] at same
      obtain ⟨token, member, first⟩ := name.head_mem rest
      rw [same] at first
      exact absurd (Option.some.inj first).symm (nameStarts_apart token member).2.2
  | sexpr opening call closing =>
    cases other with
    | name name' =>
      simp only [ParamSyntax.lexemes] at same
      obtain ⟨token, member, first⟩ := name'.head_mem rest'
      rw [← same] at first
      exact absurd (Option.some.inj first).symm (nameStarts_apart token member).2.2
    | sexpr opening' call' closing' =>
      simp only [ParamSyntax.lexemes, List.cons_append, List.append_assoc, List.cons.injEq,
        List.nil_append] at same
      obtain ⟨first, same⟩ := same
      obtain ⟨rfl, -⟩ := as_inj first
      obtain ⟨rfl, behind⟩ := call.told call' _ _ ⟨.closeSexpr, by decide, rfl⟩
        ⟨.closeSexpr, by decide, rfl⟩ same
      obtain ⟨last, rfl⟩ := List.cons.inj behind
      obtain ⟨rfl, -⟩ := as_inj last
      exact ⟨rfl, rfl⟩

theorem CallSyntax.told (call : CallSyntax) :
    Told CallSyntax.lexemes (fun _ rest => CallEnds rest) call := by
  intro other rest rest' here there same
  obtain ⟨name, params, pairs⟩ := call
  obtain ⟨name', params', pairs'⟩ := other
  simp only [CallSyntax.lexemes, List.append_assoc] at same
  have behind : ∀ {rest : List Lexeme} (params : List ParamSyntax) (pairs : List PairSyntax),
      CallEnds rest → NoSep (paramLexemes params ++ (pairLexemes pairs ++ rest)) := by
    intro rest params pairs ends
    cases params with
    | nil => exact (pairs_end ends pairs).follows.1
    | cons param others =>
      rw [paramLexemes, List.append_assoc]
      exact (param.follows _).1
  obtain ⟨rfl, later⟩ := name.told name' _ _ (behind params pairs here) (behind params' pairs' there) same
  obtain ⟨rfl, rfl, rfl⟩ := arguments_told (paramsTold params) (pairsTold pairs) here there later
  exact ⟨rfl, rfl⟩

theorem PairSyntax.told (pair : PairSyntax) : pair.Told := by
  intro other rest rest' here there same
  obtain ⟨key, equals, value⟩ := pair
  obtain ⟨key', equals', value'⟩ := other
  simp only [PairSyntax.lexemes, List.cons_append, List.cons.injEq] at same
  obtain ⟨first, second, same⟩ := same
  obtain ⟨rfl, -⟩ := as_inj first
  obtain ⟨rfl, -⟩ := as_inj second
  obtain ⟨rfl, behind⟩ := value.told value' rest rest' here there same
  exact ⟨rfl, behind⟩

theorem paramsTold (params : List ParamSyntax) : ∀ param ∈ params, param.Told := by
  cases params with
  | nil => exact fun _ absent => by cases absent
  | cons param rest => exact List.forall_mem_cons.mpr ⟨param.told, paramsTold rest⟩

theorem pairsTold (pairs : List PairSyntax) : ∀ pair ∈ pairs, pair.Told := by
  cases pairs with
  | nil => exact fun _ absent => by cases absent
  | cons pair rest => exact List.forall_mem_cons.mpr ⟨pair.told, pairsTold rest⟩

end

end Calls

section Tags

variable {rest rest' : List Lexeme} {opens closes : TokenType}

theorem blockParams_told {blockParams other : BlockParamsSyntax}
    (same : blockParams.lexemes ++ rest = other.lexemes ++ rest') :
    blockParams = other ∧ rest = rest' := by
  obtain ⟨opening, first, second, closing⟩ := blockParams
  obtain ⟨opening', first', second', closing'⟩ := other
  simp only [BlockParamsSyntax.lexemes, List.cons_append, List.cons.injEq] at same
  obtain ⟨opened, named, same⟩ := same
  obtain ⟨rfl, -⟩ := as_inj opened
  obtain ⟨rfl, -⟩ := as_inj named
  cases second with
  | none =>
    cases second' with
    | none =>
      simp only [Option.toList_none, List.map_nil, List.nil_append, List.cons_append,
        List.cons.injEq] at same
      obtain ⟨closed, behind⟩ := same
      obtain ⟨rfl, -⟩ := as_inj closed
      exact ⟨rfl, behind⟩
    | some second' => cases congrArg head same
  | some second =>
    cases second' with
    | none => cases congrArg head same
    | some second' =>
      simp only [Option.toList_some, List.map_cons, List.map_nil, List.cons_append, List.nil_append,
        List.cons.injEq] at same
      obtain ⟨named, closed, behind⟩ := same
      obtain ⟨rfl, -⟩ := as_inj named
      obtain ⟨rfl, -⟩ := as_inj closed
      exact ⟨rfl, behind⟩

/-- What is behind the call of a tag that opens a block -/
def tagEnd (closes : TokenType) (blockParams : Option BlockParamsSyntax) (closing : Terminal)
    (rest : List Lexeme) : List Lexeme :=
  blockParams.toList.flatMap BlockParamsSyntax.lexemes ++ closing.as closes :: rest

theorem tagEnd_ends (isEnd : closes ∈ callEnds) (blockParams : Option BlockParamsSyntax)
    (closing : Terminal) (rest : List Lexeme) : CallEnds (tagEnd closes blockParams closing rest) := by
  cases blockParams with
  | none => exact ⟨closes, isEnd, rfl⟩
  | some blockParams => exact ⟨.openBlockParams, by decide, rfl⟩

theorem tagEnd_told (other : closes ≠ .openBlockParams)
    {blockParams blockParams' : Option BlockParamsSyntax} {closing closing' : Terminal}
    (same : tagEnd closes blockParams closing rest = tagEnd closes blockParams' closing' rest') :
    blockParams = blockParams' ∧ closing = closing' ∧ rest = rest' := by
  have heads := congrArg head same
  have last {closing closing' : Terminal} {rest rest' : List Lexeme}
      (same : closing.as closes :: rest = closing'.as closes :: rest') :
      closing = closing' ∧ rest = rest' := by
    obtain ⟨closed, behind⟩ := List.cons.inj same
    exact ⟨(as_inj closed).1, behind⟩
  cases blockParams with
  | none =>
    cases blockParams' with
    | none => exact ⟨rfl, last same⟩
    | some inner => exact absurd (Option.some.inj heads) other
  | some inner =>
    cases blockParams' with
    | none => exact absurd (Option.some.inj heads).symm other
    | some inner' =>
      simp only [tagEnd, Option.toList_some, List.flatMap_cons, List.flatMap_nil, List.append_nil] at same
      obtain ⟨rfl, behind⟩ := blockParams_told same
      exact ⟨rfl, last behind⟩

/-- A tag that opens a block is told by its own tokens. -/
theorem OpenSyntax.told {tag other : OpenSyntax} (isEnd : closes ∈ callEnds)
    (apart : closes ≠ .openBlockParams)
    (same : tag.lexemes opens closes ++ rest = other.lexemes opens closes ++ rest') :
    tag = other ∧ rest = rest' := by
  obtain ⟨opening, call, blockParams, closing⟩ := tag
  obtain ⟨opening', call', blockParams', closing'⟩ := other
  simp only [OpenSyntax.lexemes, List.cons_append, List.cons.injEq, List.append_assoc,
    List.nil_append] at same
  obtain ⟨opened, same⟩ := same
  obtain ⟨rfl, -⟩ := as_inj opened
  obtain ⟨rfl, behind⟩ := call.told call' _ _ (tagEnd_ends isEnd blockParams closing rest)
    (tagEnd_ends isEnd blockParams' closing' rest') same
  obtain ⟨rfl, rfl, rfl⟩ := tagEnd_told apart behind
  exact ⟨rfl, rfl⟩

theorem close_told {closing closing' : Terminal}
    (same : closing.as closes :: rest = closing'.as closes :: rest') :
    closing = closing' ∧ rest = rest' := by
  obtain ⟨closed, behind⟩ := List.cons.inj same
  exact ⟨(as_inj closed).1, behind⟩

theorem CloseSyntax.told {tag other : CloseSyntax}
    (same : tag.lexemes ++ rest = other.lexemes ++ rest') : tag = other ∧ rest = rest' := by
  obtain ⟨opening, name, closing⟩ := tag
  obtain ⟨opening', name', closing'⟩ := other
  simp only [CloseSyntax.lexemes, List.cons_append, List.cons.injEq, List.append_assoc,
    List.nil_append] at same
  obtain ⟨opened, same⟩ := same
  obtain ⟨rfl, -⟩ := as_inj opened
  have noSep (closing : Terminal) (rest : List Lexeme) : NoSep (closing.as .close :: rest) := by
    simp [NoSep]
  obtain ⟨rfl, behind⟩ := name.told name' _ _ (noSep closing rest) (noSep closing' rest') same
  obtain ⟨rfl, rfl⟩ := close_told behind
  exact ⟨rfl, rfl⟩

theorem PartialSyntax.told {tag other : PartialSyntax}
    (same : tag.lexemes opens ++ rest = other.lexemes opens ++ rest') : tag = other ∧ rest = rest' := by
  obtain ⟨opening, name, params, pairs, closing⟩ := tag
  obtain ⟨opening', name', params', pairs', closing'⟩ := other
  simp only [PartialSyntax.lexemes, List.cons_append, List.cons.injEq, List.append_assoc,
    List.nil_append] at same
  obtain ⟨opened, same⟩ := same
  obtain ⟨rfl, -⟩ := as_inj opened
  have ends (closing : Terminal) (rest : List Lexeme) : CallEnds (closing.as .close :: rest) :=
    ⟨.close, by decide, rfl⟩
  have behind {rest : List Lexeme} (params : List ParamSyntax) (pairs : List PairSyntax)
      (ends : CallEnds rest) : ParamFollows (paramLexemes params ++ (pairLexemes pairs ++ rest)) := by
    cases params with
    | nil => exact (pairs_end ends pairs).follows
    | cons param others =>
      rw [paramLexemes, List.append_assoc]
      exact param.follows _
  obtain ⟨rfl, later⟩ := name.told name' _ _ (behind params pairs (ends closing rest))
    (behind params' pairs' (ends closing' rest')) same
  obtain ⟨rfl, rfl, last⟩ := arguments_told (paramsTold params) (pairsTold pairs) (ends closing rest)
    (ends closing' rest') later
  obtain ⟨rfl, rfl⟩ := close_told last
  exact ⟨rfl, rfl⟩

end Tags

section Statements

def StatementSyntax.isContent : StatementSyntax → Bool
  | .content .. => true
  | _ => false

mutual

/-- Contents that are next to each other are one: the precedence of `CONTENT` has it shifted. -/
def StatementSyntax.settled : StatementSyntax → Bool
  | .block _ _ program inverse _ => programOptionSettled program && inverseOptionSettled inverse
  | .partialBlock _ program _ => programOptionSettled program
  | .mustache .. | .rawBlock .. | .partialCall .. | .content .. | .comment .. => true

def statementsSettled : List StatementSyntax → Bool
  | [] => true
  | statement :: rest =>
    statement.settled && !(statement.isContent && rest.head?.any (·.isContent)) && statementsSettled rest

def ProgramSyntax.settled : ProgramSyntax → Bool
  | .mk first rest =>
    first.settled && !(first.isContent && rest.head?.any (·.isContent)) && statementsSettled rest

def programOptionSettled : Option ProgramSyntax → Bool
  | none => true
  | some program => program.settled

def InverseSyntax.settled : InverseSyntax → Bool
  | .chain _ program inverse => programOptionSettled program && inverseOptionSettled inverse
  | .inverse _ program => programOptionSettled program

def inverseOptionSettled : Option InverseSyntax → Bool
  | none => true
  | some inverse => inverse.settled

end

/-- The tokens a statement starts with -/
def statementStarts : List TokenType :=
  [.open_, .openUnescaped, .openBlock, .openInverse, .openRawBlock, .openPartial, .openPartialBlock,
    .content, .comment, .longComment]

/-- The token a statement starts with -/
def StatementSyntax.start : StatementSyntax → TokenType
  | .mustache unescaped .. => if unescaped then .openUnescaped else .open_
  | .block inverted .. => if inverted then .openInverse else .openBlock
  | .rawBlock .. => .openRawBlock
  | .partialCall _ => .openPartial
  | .partialBlock .. => .openPartialBlock
  | .content .. => .content
  | .comment isLong _ => if isLong then .longComment else .comment

theorem StatementSyntax.start_mem (statement : StatementSyntax) :
    statement.start ∈ statementStarts := by
  cases statement with
  | mustache unescaped => cases unescaped <;> simp [start, statementStarts]
  | block inverted => cases inverted <;> simp [start, statementStarts]
  | comment isLong => cases isLong <;> simp [start, statementStarts]
  | rawBlock | partialCall | partialBlock | content => simp [start, statementStarts]

theorem StatementSyntax.start_content (statement : StatementSyntax) :
    statement.start = .content ↔ statement.isContent = true := by
  cases statement with
  | mustache unescaped => cases unescaped <;> simp [start, isContent]
  | block inverted => cases inverted <;> simp [start, isContent]
  | comment isLong => cases isLong <;> simp [start, isContent]
  | rawBlock | partialCall | partialBlock | content => simp [start, isContent]

/-- The kind of a statement, whatever its tokens are -/
def StatementSyntax.sort : StatementSyntax → Nat
  | .mustache .. => 0
  | .block .. => 1
  | .rawBlock .. => 2
  | .partialCall _ => 3
  | .partialBlock .. => 4
  | .content .. => 5
  | .comment .. => 6

/-- The first token tells the kind of a statement. -/
theorem StatementSyntax.start_sort {statement other : StatementSyntax}
    (same : statement.start = other.start) : statement.sort = other.sort := by
  cases statement <;> cases other <;> simp only [start] at same <;> first
    | rfl
    | grind

theorem StatementSyntax.head_eq (statement : StatementSyntax) (rest : List Lexeme) :
    head (statement.lexemes ++ rest) = some statement.start := by
  cases statement <;> rfl

/-- A program ends here. -/
def ProgramEnds (rest : List Lexeme) : Prop :=
  head rest ∈ [none, some .inverse, some .openInverseChain, some .openEndblock]

/-- What may follow a statement: a content ends where no other one follows. -/
def StatementFollows (statement : StatementSyntax) (rest : List Lexeme) : Prop :=
  statement.settled = true ∧ (statement.isContent = true → head rest ≠ some .content)

theorem ProgramEnds.not_start {rest : List Lexeme} (ends : ProgramEnds rest) {token : TokenType}
    (start : token ∈ statementStarts) : head rest ≠ some token := by
  unfold ProgramEnds at ends
  generalize head rest = first at ends
  rintro rfl
  revert token
  decide

theorem StatementSyntax.not_end (statement : StatementSyntax) (rest : List Lexeme) :
    ¬ProgramEnds (statement.lexemes ++ rest) :=
  fun ends => ends.not_start statement.start_mem (statement.head_eq rest)

theorem statementLexemes_eq (statements : List StatementSyntax) :
    statementLexemes statements = statements.flatMap StatementSyntax.lexemes := by
  induction statements with
  | nil => rfl
  | cons statement rest ih => rw [statementLexemes, List.flatMap_cons, ih]

theorem statements_fit {statements : List StatementSyntax} {rest : List Lexeme}
    (settled : statementsSettled statements = true) (ends : ProgramEnds rest) :
    Fits StatementSyntax.lexemes StatementFollows ProgramEnds rest statements := by
  induction statements with
  | nil => exact ends
  | cons statement others ih =>
    rw [statementsSettled, Bool.and_eq_true, Bool.and_eq_true, Bool.not_eq_true'] at settled
    obtain ⟨⟨own, apart⟩, later⟩ := settled
    refine ⟨⟨own, fun content => ?_⟩, ih later⟩
    rw [content, Bool.true_and] at apart
    cases others with
    | nil => exact ends.not_start (by decide)
    | cons next others =>
      rw [List.flatMap_cons, List.append_assoc, next.head_eq]
      intro same
      have again := next.start_content.mp (Option.some.inj same)
      rw [List.head?_cons, Option.any_some, again] at apart
      cases apart

/-- The contents of a text are told by the token behind them. -/
theorem contents_told {contents contents' : List Terminal} {rest rest' : List Lexeme}
    (ends : head rest ≠ some .content) (ends' : head rest' ≠ some .content)
    (same : contentLexemes contents ++ rest = contentLexemes contents' ++ rest') :
    contents = contents' ∧ rest = rest' := by
  have code (contents : List Terminal) : contentLexemes contents =
      contents.flatMap fun value => [value.as .content] := by
    unfold contentLexemes
    exact List.map_eq_flatMap
  rw [code, code] at same
  refine told_free _ (fun rest => head rest ≠ some .content) (fun value => ?_)
    (fun value rest => by simp) ends ends' same
  intro value' rest rest' _ _ same
  obtain ⟨first, behind⟩ := List.cons.inj same
  exact ⟨(as_inj first).1, behind⟩

abbrev StatementSyntax.Told (statement : StatementSyntax) : Prop :=
  Codes.Told StatementSyntax.lexemes StatementFollows statement

/-- A program is told by what ends it. -/
abbrev ProgramSyntax.Told (program : ProgramSyntax) : Prop :=
  Codes.Told ProgramSyntax.lexemes (fun program rest => program.settled = true ∧ ProgramEnds rest) program

/-- An inverse part is told by the tag that closes its block. -/
abbrev InverseSyntax.Told (inverse : InverseSyntax) : Prop :=
  Codes.Told InverseSyntax.lexemes
    (fun inverse rest => inverse.settled = true ∧ head rest = some .openEndblock) inverse

theorem ProgramSyntax.not_end (program : ProgramSyntax) (rest : List Lexeme) :
    ¬ProgramEnds (program.lexemes ++ rest) := by
  obtain ⟨first, others⟩ := program
  rw [ProgramSyntax.lexemes, List.append_assoc]
  exact first.not_end _

theorem InverseSyntax.head_mem (inverse : InverseSyntax) (rest : List Lexeme) :
    head (inverse.lexemes ++ rest) = some .openInverseChain ∨
      head (inverse.lexemes ++ rest) = some .inverse := by
  cases inverse with
  | chain => exact .inl rfl
  | inverse => exact .inr rfl

/-- What is behind the program of a block -/
theorem inverse_ends {rest : List Lexeme} (closing : head rest = some .openEndblock)
    (inverse : Option InverseSyntax) : ProgramEnds (inverseOptionLexemes inverse ++ rest) := by
  cases inverse with
  | none =>
    unfold ProgramEnds inverseOptionLexemes
    rw [List.nil_append, closing]
    decide
  | some inverse =>
    unfold ProgramEnds inverseOptionLexemes
    rcases inverse.head_mem rest with same | same
    · rw [same]
      decide
    · rw [same]
      decide

theorem programOption_told {program program' : Option ProgramSyntax} {rest rest' : List Lexeme}
    (told : ∀ inner ∈ program, inner.Told) (settled : programOptionSettled program = true)
    (settled' : programOptionSettled program' = true) (ends : ProgramEnds rest) (ends' : ProgramEnds rest')
    (same : programOptionLexemes program ++ rest = programOptionLexemes program' ++ rest') :
    program = program' ∧ rest = rest' := by
  cases program with
  | none =>
    cases program' with
    | none => exact ⟨rfl, same⟩
    | some inner' => exact absurd (same ▸ ends) (inner'.not_end rest')
  | some inner =>
    cases program' with
    | none => exact absurd (same ▸ ends') (inner.not_end rest)
    | some inner' =>
      obtain ⟨rfl, behind⟩ := told inner rfl inner' rest rest' ⟨settled, ends⟩ ⟨settled', ends'⟩ same
      exact ⟨rfl, behind⟩

theorem inverseOption_told {inverse inverse' : Option InverseSyntax} {rest rest' : List Lexeme}
    (told : ∀ inner ∈ inverse, inner.Told) (settled : inverseOptionSettled inverse = true)
    (settled' : inverseOptionSettled inverse' = true) (closing : head rest = some .openEndblock)
    (closing' : head rest' = some .openEndblock)
    (same : inverseOptionLexemes inverse ++ rest = inverseOptionLexemes inverse' ++ rest') :
    inverse = inverse' ∧ rest = rest' := by
  have apart {inner : InverseSyntax} {rest rest' : List Lexeme} (closing : head rest = some .openEndblock) :
      rest ≠ inner.lexemes ++ rest' := by
    rintro rfl
    rcases inner.head_mem rest' with same | same
    · rw [same] at closing
      cases closing
    · rw [same] at closing
      cases closing
  cases inverse with
  | none =>
    cases inverse' with
    | none => exact ⟨rfl, same⟩
    | some inner' => exact absurd same (apart closing)
  | some inner =>
    cases inverse' with
    | none => exact absurd same.symm (apart closing')
    | some inner' =>
      obtain ⟨rfl, behind⟩ := told inner rfl inner' rest rest' ⟨settled, closing⟩ ⟨settled', closing'⟩ same
      exact ⟨rfl, behind⟩

mutual

theorem StatementSyntax.told (statement : StatementSyntax) : statement.Told := by
  intro other rest rest' here there same
  have starts : statement.start = other.start := by
    have heads := congrArg head same
    rw [statement.head_eq, other.head_eq] at heads
    exact Option.some.inj heads
  have sorts := StatementSyntax.start_sort starts
  cases statement with
  | mustache unescaped opening call closing =>
    cases other with
    | mustache unescaped' opening' call' closing' =>
      have flags : unescaped = unescaped' := by
        revert starts
        cases unescaped <;> cases unescaped' <;> simp [StatementSyntax.start]
      subst flags
      have closes : (if unescaped then TokenType.closeUnescaped else .close) ∈ callEnds := by
        cases unescaped <;> decide
      simp only [StatementSyntax.lexemes, List.cons_append, List.cons.injEq, List.append_assoc,
        List.nil_append] at same
      obtain ⟨opened, same⟩ := same
      obtain ⟨rfl, -⟩ := as_inj opened
      obtain ⟨rfl, behind⟩ := call.told call' _ _ ⟨_, closes, rfl⟩ ⟨_, closes, rfl⟩ same
      obtain ⟨rfl, rfl⟩ := close_told behind
      exact ⟨rfl, rfl⟩
    | _ => cases sorts
  | block inverted opening program inverse closing =>
    cases other with
    | block inverted' opening' program' inverse' closing' =>
      have flags : inverted = inverted' := by
        revert starts
        cases inverted <;> cases inverted' <;> simp [StatementSyntax.start]
      subst flags
      obtain ⟨inner, outer⟩ := Bool.and_eq_true_iff.mp here.1
      obtain ⟨inner', outer'⟩ := Bool.and_eq_true_iff.mp there.1
      simp only [StatementSyntax.lexemes, List.append_assoc] at same
      obtain ⟨rfl, body⟩ := OpenSyntax.told (by decide) (by decide) same
      obtain ⟨rfl, others⟩ := programOption_told (programOptionTold program) inner inner'
        (inverse_ends rfl inverse) (inverse_ends rfl inverse') body
      obtain ⟨rfl, closed⟩ := inverseOption_told (inverseOptionTold inverse) outer outer' rfl rfl others
      obtain ⟨rfl, behind⟩ := CloseSyntax.told closed
      exact ⟨rfl, behind⟩
    | _ => cases sorts
  | rawBlock opening contents closing =>
    cases other with
    | rawBlock opening' contents' closing' =>
      simp only [StatementSyntax.lexemes, List.append_assoc, List.cons_append, List.nil_append] at same
      obtain ⟨rfl, body⟩ := OpenSyntax.told (by decide) (by decide) same
      obtain ⟨rfl, closed⟩ := contents_told (by simp) (by simp) body
      obtain ⟨rfl, behind⟩ := close_told closed
      exact ⟨rfl, behind⟩
    | _ => cases sorts
  | partialCall tag =>
    cases other with
    | partialCall tag' =>
      simp only [StatementSyntax.lexemes] at same
      obtain ⟨rfl, behind⟩ := PartialSyntax.told same
      exact ⟨rfl, behind⟩
    | _ => cases sorts
  | partialBlock tag program closing =>
    cases other with
    | partialBlock tag' program' closing' =>
      simp only [StatementSyntax.lexemes, List.append_assoc] at same
      obtain ⟨rfl, body⟩ := PartialSyntax.told same
      obtain ⟨rfl, closed⟩ := programOption_told (programOptionTold program) here.1 there.1
        (inverse_ends rfl none) (inverse_ends rfl none) body
      obtain ⟨rfl, behind⟩ := CloseSyntax.told closed
      exact ⟨rfl, behind⟩
    | _ => cases sorts
  | content first contents =>
    cases other with
    | content first' contents' =>
      simp only [StatementSyntax.lexemes] at same
      obtain ⟨contents, behind⟩ := contents_told (here.2 rfl) (there.2 rfl) same
      cases contents
      exact ⟨rfl, behind⟩
    | _ => cases sorts
  | comment isLong value =>
    cases other with
    | comment isLong' value' =>
      have flags : isLong = isLong' := by
        revert starts
        cases isLong <;> cases isLong' <;> simp [StatementSyntax.start]
      subst flags
      obtain ⟨rfl, behind⟩ := close_told same
      exact ⟨rfl, behind⟩
    | _ => cases sorts
termination_by structural statement

theorem statementsTold (statements : List StatementSyntax) : ∀ inner ∈ statements, inner.Told := by
  cases statements with
  | nil => exact fun _ absent => by cases absent
  | cons statement rest => exact List.forall_mem_cons.mpr ⟨statement.told, statementsTold rest⟩
termination_by structural statements

theorem ProgramSyntax.told (program : ProgramSyntax) : program.Told := by
  intro other rest rest' here there same
  obtain ⟨first, others⟩ := program
  obtain ⟨first', others'⟩ := other
  rw [ProgramSyntax.lexemes, ProgramSyntax.lexemes, statementLexemes_eq, statementLexemes_eq,
    ← List.flatMap_cons, ← List.flatMap_cons] at same
  obtain ⟨statements, behind⟩ := told_list (List.forall_mem_cons.mpr ⟨first.told, statementsTold others⟩)
    (fun statement rest _ => statement.not_end rest)
    (@statements_fit (first :: others) _ here.1 here.2)
    (@statements_fit (first' :: others') _ there.1 there.2) same
  cases statements
  exact ⟨rfl, behind⟩
termination_by structural program

theorem programOptionTold (program : Option ProgramSyntax) : ∀ inner ∈ program, inner.Told := by
  cases program with
  | none => exact fun _ absent => by cases absent
  | some program =>
    rintro _ ⟨⟩
    exact program.told
termination_by structural program

theorem InverseSyntax.told (inverse : InverseSyntax) : inverse.Told := by
  intro other rest rest' here there same
  cases inverse with
  | chain tag program inverse =>
    cases other with
    | chain tag' program' inverse' =>
      obtain ⟨inner, outer⟩ := Bool.and_eq_true_iff.mp here.1
      obtain ⟨inner', outer'⟩ := Bool.and_eq_true_iff.mp there.1
      simp only [InverseSyntax.lexemes, List.append_assoc] at same
      obtain ⟨rfl, body⟩ := OpenSyntax.told (by decide) (by decide) same
      obtain ⟨rfl, others⟩ := programOption_told (programOptionTold program) inner inner'
        (inverse_ends here.2 inverse) (inverse_ends there.2 inverse') body
      obtain ⟨rfl, behind⟩ :=
        inverseOption_told (inverseOptionTold inverse) outer outer' here.2 there.2 others
      exact ⟨rfl, behind⟩
    | inverse => cases congrArg head same
  | inverse tag program =>
    cases other with
    | chain => cases congrArg head same
    | inverse tag' program' =>
      simp only [InverseSyntax.lexemes, List.cons_append, List.cons.injEq] at same
      obtain ⟨opened, body⟩ := same
      obtain ⟨rfl, -⟩ := as_inj opened
      obtain ⟨rfl, behind⟩ := programOption_told (programOptionTold program) here.1 there.1
        (inverse_ends here.2 none) (inverse_ends there.2 none) body
      exact ⟨rfl, behind⟩
termination_by structural inverse

theorem inverseOptionTold (inverse : Option InverseSyntax) : ∀ inner ∈ inverse, inner.Told := by
  cases inverse with
  | none => exact fun _ absent => by cases absent
  | some inverse =>
    rintro _ ⟨⟩
    exact inverse.told
termination_by structural inverse

end

/-- The tokens of a template have one parse tree, where adjacent contents are read as one. -/
theorem grammar_unambiguous {source other : ProgramSyntax} (settled : source.settled = true)
    (settled' : other.settled = true) (same : source.lexemes = other.lexemes) : source = other := by
  refine (source.told other [] [] ⟨settled, ?_⟩ ⟨settled', ?_⟩ (by rw [same])).1 <;>
    simp [ProgramEnds]

/-- A text and a comment behind it -/
def textSyntax : ProgramSyntax :=
  .mk (.content ⟨bytes "a", .zero⟩ []) [.comment false ⟨bytes "b", .zero⟩]

theorem grammar_unambiguous_text : ProgramSyntax.mk (.content ⟨bytes "a", .zero⟩ [])
    [.comment false ⟨bytes "b", .zero⟩] = textSyntax :=
  grammar_unambiguous rfl rfl rfl

end Statements

end HandlebarsC.Parser
