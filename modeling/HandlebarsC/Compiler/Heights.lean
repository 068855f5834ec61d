import HandlebarsC.Compiler.Visits

/-!
Where the node stacks of the compiler hold: a compilation that visits a tree returns with the stacks
as they were, or throws, exactly where the visit does not break.
-/

namespace HandlebarsC

open Effect

namespace Compiler

/-- What a part leaves as it was: options and node stacks -/
structure Restored (before after : Compiler) : Prop where
  flags : after.flags = before.flags
  knownHelpers : after.knownHelpers = before.knownHelpers
  bps : after.bps = before.bps
  sns : after.sns = before.sns

/-- A run ends as the visit does. -/
def Ends (verdict : Verdict) (body : Compile α) (compiler : Compiler) : Prop :=
  match verdict with
  | .completes => ∃ value after, (body compiler).1 = .ok value after ∧ Restored compiler after
  | .throws => ∃ after, (body compiler).1 = .thrown after
  | .breaks => ∃ after, (body compiler).1 = .aborted after

/-- A compiler in a room -/
structure Room.Of (room : Room) (compiler : Compiler) : Prop where
  flags : compiler.flags = room.flags
  knownHelpers : compiler.knownHelpers = room.knownHelpers
  bps : compiler.bps = some room.scopes
  sns : ∃ nodes, compiler.sns = some nodes ∧ nodes.length = room.nodes

/-- In a room every run of a part ends as the visit does. -/
def Follows (room : Room) (verdict : Verdict) (body : Compile α) : Prop :=
  ∀ compiler, room.Of compiler → Ends verdict body compiler

section Rules

variable {room : Room} {verdict first second : Verdict} {platform : Platform}

theorem Restored.refl (compiler : Compiler) : Restored compiler compiler := ⟨rfl, rfl, rfl, rfl⟩

theorem Restored.trans (early : Restored before middle) (late : Restored middle after) :
    Restored before after :=
  ⟨late.flags.trans early.flags, late.knownHelpers.trans early.knownHelpers, late.bps.trans early.bps,
    late.sns.trans early.sns⟩

theorem Room.Of.restored (inside : room.Of before) (restored : Restored before after) : room.Of after := by
  obtain ⟨nodes, sns, height⟩ := inside.sns
  exact ⟨restored.flags.trans inside.flags, restored.knownHelpers.trans inside.knownHelpers,
    restored.bps.trans inside.bps, nodes, restored.sns.trans sns, height⟩

theorem follows_bind {body : Compile α} {next : α → Compile β} (start : Follows room first body)
    (rest : ∀ value, Follows room second (next value)) :
    Follows room (first.andThen second) (body >>= next) := by
  intro compiler inside
  have ended := start compiler inside
  have whole := Proc.bind_outcome body next compiler
  cases first with
  | completes =>
    obtain ⟨value, between, ran, restored⟩ := ended
    have later := rest value between (inside.restored restored)
    rw [ran] at whole
    cases second with
    | completes =>
      obtain ⟨result, after, ended, again⟩ := later
      exact ⟨result, after, whole.trans ended, restored.trans again⟩
    | throws =>
      obtain ⟨after, ended⟩ := later
      exact ⟨after, whole.trans ended⟩
    | breaks =>
      obtain ⟨after, ended⟩ := later
      exact ⟨after, whole.trans ended⟩
  | throws =>
    obtain ⟨after, ran⟩ := ended
    rw [ran] at whole
    exact ⟨after, whole⟩
  | breaks =>
    obtain ⟨after, ran⟩ := ended
    rw [ran] at whole
    exact ⟨after, whole⟩

theorem follows_pure (value : α) : Follows room .completes (pure value : Compile α) :=
  fun compiler _ => ⟨value, compiler, rfl, .refl compiler⟩

theorem follows_view {view : Compiler → β} {next : β → Compile α}
    (rest : ∀ compiler, room.Of compiler → Follows room verdict (next (view compiler))) :
    Follows room verdict (Proc.read view >>= next) := by
  intro compiler inside
  have ended := rest compiler inside compiler inside
  unfold Ends at ended ⊢
  rwa [Proc.bind_read]

theorem follows_write {change : Compiler → Compiler}
    (same : ∀ compiler, Restored compiler (change compiler)) :
    Follows room .completes (Proc.write change) :=
  fun compiler _ => ⟨(), change compiler, rfl, same compiler⟩

/-- A silent part in front -/
theorem Follows.after {body : Compile β} {next : β → Compile α} (silent : Follows room .completes body)
    (rest : ∀ value, Follows room verdict (next value)) : Follows room verdict (body >>= next) :=
  follows_bind silent rest

/-- A silent part behind -/
theorem Follows.before {body : Compile β} {next : β → Compile α} (start : Follows room verdict body)
    (silent : ∀ value, Follows room .completes (next value)) : Follows room verdict (body >>= next) := by
  have whole := follows_bind start silent
  cases verdict <;> exact whole

theorem follows_raise (error : Error) : Follows room .throws (raise error : Compile α) :=
  fun _ _ => ⟨_, rfl⟩

theorem follows_nonnull (string : Option Str) : Follows room (Room.string string) (nonnull string) := by
  cases string with
  | none => exact fun compiler _ => ⟨compiler, rfl⟩
  | some value => exact follows_pure value

theorem follows_when {body : Compile Unit} (condition : Bool) (follows : Follows room verdict body) :
    Follows room (if condition then verdict else .completes) (Proc.when condition body) := by
  cases condition with
  | true => exact follows
  | false => exact follows_pure ()

theorem follows_opcode (op : Opcode) : Follows room .completes (opcode op) :=
  follows_write fun _ => ⟨rfl, rfl, rfl, rfl⟩

theorem follows_addResultFlag (flag : Nat) : Follows room .completes (addResultFlag flag) :=
  follows_write fun _ => ⟨rfl, rfl, rfl, rfl⟩

theorem follows_addDepth (depth : Nat) : Follows room .completes (addDepth depth) :=
  follows_write fun _ => ⟨rfl, rfl, rfl, rfl⟩

/-- A part behind a push, and what takes the entry back -/
theorem ends_pushed {body later : Compile Unit} {push : Compiler → Compiler} {inner : Room}
    (follows : Follows inner verdict body) (enters : inner.Of (push compiler))
    (leaves : ∀ after, Restored (push compiler) after →
      ∃ last, (later after).1 = .ok () last ∧ Restored compiler last) :
    Ends verdict (Proc.write push >>= fun _ => body >>= fun _ => later) compiler := by
  have ended := follows _ enters
  unfold Ends
  rw [Proc.bind_write, Proc.bind_outcome]
  cases verdict with
  | completes =>
    obtain ⟨_, after, ran, restored⟩ := ended
    obtain ⟨last, left, whole⟩ := leaves after restored
    exact ⟨(), last, by rw [ran]; exact left, whole⟩
  | throws =>
    obtain ⟨after, ran⟩ := ended
    exact ⟨after, by rw [ran]⟩
  | breaks =>
    obtain ⟨after, ran⟩ := ended
    exact ⟨after, by rw [ran]⟩

theorem Ends.congr {body other : Compile α} (ends : Ends verdict other compiler)
    (same : body compiler = other compiler) : Ends verdict body compiler := by
  unfold Ends
  rwa [same]

/-- The test of a stack in front of a push: it lets one entry too many through. -/
theorem ends_guarded {body : Compile Unit} (height : Nat) (error : Error)
    (ends : Ends verdict body compiler) :
    Ends (if height > stackSize then .throws else if height = stackSize then .breaks else verdict)
      (if height > stackSize then raise error else if height = stackSize then Proc.abort else body)
      compiler := by
  split_ifs
  · exact ⟨_, rfl⟩
  · exact ⟨compiler, rfl⟩
  · exact ends

theorem follows_located {body : Compile Unit} {visit : Room → Verdict} (loc : LocInfo)
    (inner : Follows { room with nodes := room.nodes + 1 } (visit { room with nodes := room.nodes + 1 }) body) :
    Follows room (room.node visit) (located loc body) := by
  intro compiler inside
  obtain ⟨nodes, sns, height⟩ := inside.sns
  have pushed : Ends (visit { room with nodes := room.nodes + 1 }) (do
      Proc.write fun compiler => { compiler with sns := some (loc :: nodes) }
      body
      Proc.write fun compiler => { compiler with sns := compiler.sns.map List.tail }) compiler := by
    refine ends_pushed inner ?_ ?_
    · exact ⟨inside.flags, inside.knownHelpers, inside.bps, loc :: nodes, rfl, by simp [height]⟩
    · intro after restored
      refine ⟨_, rfl, restored.flags, restored.knownHelpers, restored.bps, ?_⟩
      simp [restored.sns, sns]
  rw [Room.node, ← height] at *
  let blown : Error := ⟨.stackOverflow, bytes "Source node stack blown", LocInfo.zero⟩
  refine (ends_guarded nodes.length blown pushed).congr ?_
  unfold located
  rw [Proc.bind_read, sns]

/-- The statements of a program, between the push and the pop of its block parameters -/
theorem follows_acceptProgram {body : Compile Unit} {visit : Room → Verdict}
    (blockParam1 blockParam2 : Option Str) (count : Nat)
    (inner : Follows { room with scopes := ⟨blockParam1, blockParam2⟩ :: room.scopes }
      (visit { room with scopes := ⟨blockParam1, blockParam2⟩ :: room.scopes }) body) :
    Follows room (room.scope ⟨blockParam1, blockParam2⟩ visit)
      (acceptProgram blockParam1 blockParam2 count body) := by
  intro compiler inside
  have pushed : Ends (visit { room with scopes := ⟨blockParam1, blockParam2⟩ :: room.scopes }) (do
      Proc.write fun compiler => { compiler with
        bps := some (⟨blockParam1, blockParam2⟩ :: room.scopes)
        declared := compiler.declared ++ [([], ⟨blockParam1, blockParam2⟩)] }
      body
      Proc.write fun compiler => { compiler with bps := compiler.bps.map List.tail }
      Proc.when (count = 1) (addResultFlag resultIsSimple)
      Proc.write fun compiler => { compiler with
        blockParams := compiler.blockParams + blockParam1.toList.length +
          blockParam2.toList.length }) compiler := by
    refine ends_pushed inner ?_ ?_
    · exact ⟨inside.flags, inside.knownHelpers, rfl, inside.sns⟩
    · intro after restored
      have popped : after.bps.map List.tail = compiler.bps := by
        rw [restored.bps, inside.bps]
        rfl
      cases decide (count = 1) with
      | true => exact ⟨_, rfl, restored.flags, restored.knownHelpers, popped, restored.sns⟩
      | false => exact ⟨_, rfl, restored.flags, restored.knownHelpers, popped, restored.sns⟩
  let blown : Error := ⟨.stackOverflow, bytes "Block param stack blown", LocInfo.zero⟩
  refine (ends_guarded room.scopes.length blown pushed).congr ?_
  unfold acceptProgram
  rw [Proc.bind_read, inside.bps]

theorem follows_compileChild {body : Compile Unit} (inner : Follows room verdict body) :
    Follows room verdict (compileChild body) := by
  intro compiler inside
  have ended := inner (subcompiler compiler) ⟨inside.flags, inside.knownHelpers, inside.bps, inside.sns⟩
  unfold Ends compileChild within
  cases verdict with
  | completes =>
    obtain ⟨_, after, ran, restored⟩ := ended
    rw [ran]
    exact ⟨_, _, rfl, rfl, rfl, rfl, rfl⟩
  | throws =>
    obtain ⟨after, ran⟩ := ended
    rw [ran]
    exact ⟨_, rfl⟩
  | breaks =>
    obtain ⟨after, ran⟩ := ended
    rw [ran]
    exact ⟨_, rfl⟩

theorem follows_pushProgram (guid : Int) : Follows room .completes (pushProgram guid) := by
  unfold pushProgram
  split_ifs
  · exact follows_opcode _
  · exact follows_opcode _

theorem follows_pushProgramPair (programGuid inverseGuid : Int) :
    Follows room .completes (pushProgramPair programGuid inverseGuid) :=
  (follows_pushProgram _).after fun _ => follows_pushProgram _

theorem follows_compileProgram {node : Option (Compile Unit)}
    (inner : match node with
      | none => verdict = .completes
      | some body => Follows room verdict body) :
    Follows room verdict (compileProgram node) := by
  cases node with
  | none =>
    subst inner
    exact follows_pure (-1)
  | some body =>
    refine follows_view fun compiler _ => ?_
    exact (follows_compileChild inner).before fun _ => follows_pure _

theorem follows_acceptPath (path : PathNode) : Follows room .completes (acceptPath platform path) := by
  refine Follows.after (follows_write fun _ => ⟨rfl, rfl, rfl, rfl⟩) fun _ => ?_
  refine (follows_addDepth _).after fun _ => ?_
  refine (follows_opcode _).after fun _ => ?_
  exact follows_view fun compiler _ => follows_opcode _

theorem follows_acceptLiteral (type : LiteralType) (value : Str) :
    Follows room .completes (acceptLiteral platform type value) := by
  cases type with
  | number =>
    change Follows room .completes (acceptNumber platform value)
    unfold acceptNumber
    split_ifs
    · exact follows_opcode _
    · cases platform.numberLong value with
      | none => exact follows_opcode _
      | some long => exact follows_opcode _
  | boolean | nul | string | undefined => exact follows_opcode _

theorem follows_leaf {body : Compile Unit} (loc : LocInfo)
    (inner : Follows { room with nodes := room.nodes + 1 } .completes body) :
    Follows room room.leaf (located loc body) :=
  follows_located loc inner

theorem follows_path (loc : LocInfo) (path : PathNode) :
    Follows room room.leaf (located loc (acceptPath platform path)) :=
  follows_leaf loc (follows_acceptPath path)

theorem follows_acceptName (name : HelperName) : Follows room room.leaf (acceptName platform name) := by
  cases name with
  | path node => exact follows_path _ node
  | literal type loc value => exact follows_leaf loc (follows_acceptLiteral type value)

theorem follows_pushStringParam {accept : Compile Unit} (param : Param)
    (accepted : Follows room verdict accept) :
    Follows room ((Room.string param.stringModeValue).andThen
      (if isSexpr param then verdict else .completes)) (pushStringParam param accept) := by
  refine (follows_addDepth _).after fun _ => (follows_opcode _).after fun _ => ?_
  refine follows_bind (follows_nonnull _) fun string => ?_
  exact (follows_opcode _).after fun _ => follows_when _ accepted

theorem follows_pushId (param : Param) :
    Follows room (if (paramBlockParam platform room.scopes param).isNone then Room.string param.stringModeValue
      else .completes) (pushId platform param) := by
  refine follows_view fun compiler inside => ?_
  rw [inside.bps, Option.getD_some]
  cases paramBlockParam platform room.scopes param with
  | none => exact (follows_nonnull _).before fun _ => follows_opcode _
  | some found => exact follows_opcode _

theorem follows_pushParam {accept : Compile Unit} (param : Param) (accepted : Follows room verdict accept) :
    Follows room (room.pushParam platform param verdict) (pushParam platform param accept) := by
  refine follows_view fun compiler inside => ?_
  rw [inside.flags, Room.pushParam]
  by_cases strings : room.flags.has Flag.stringParams = true
  · rw [if_pos strings, if_pos strings]
    exact follows_pushStringParam param accepted
  · rw [if_neg strings, if_neg strings]
    have pushed : Follows room _ (Proc.when (room.flags.has Flag.trackIds) (pushId platform param) >>=
        fun _ => accept) := follows_bind (follows_when _ (follows_pushId param)) fun _ => accepted
    cases tracked : room.flags.has Flag.trackIds with
    | false =>
      rw [tracked] at pushed
      exact pushed
    | true =>
      rw [tracked] at pushed
      cases missing : (paramBlockParam platform room.scopes param).isNone with
      | false =>
        rw [missing] at pushed
        exact pushed
      | true =>
        rw [missing] at pushed
        exact pushed

theorem classifySexpr_room {compiler : Compiler} (inside : room.Of compiler) (path : PathNode)
    (isHelperExpression : Bool) : classifySexpr platform compiler path isHelperExpression =
      classifySexpr platform room.compiler path isHelperExpression := by
  simp only [classifySexpr, isKnownHelper, Room.compiler, inside.flags, inside.knownHelpers, inside.bps]
  rfl

/-- What the parts of a node's arguments follow -/
structure ArgumentsFollow (room : Room) (first second : Verdict) (arguments : Arguments) : Prop where
  params : Follows room first arguments.params
  hash : match arguments.hash with
    | none => second = .completes
    | some body => Follows room second body

theorem ArgumentsFollow.setup {arguments : Arguments} (follow : ArgumentsFollow room first second arguments)
    (programGuid inverseGuid : Int) (omitEmpty : Bool) :
    Follows room (first.andThen second)
      (setupFullMustacheParams arguments programGuid inverseGuid omitEmpty) := by
  refine follows_bind follow.params fun _ => ?_
  refine (follows_pushProgramPair _ _).after fun _ => ?_
  have known := follow.hash
  cases hash : arguments.hash with
  | none =>
    rw [hash] at known
    subst known
    cases omitEmpty with
    | true => exact follows_opcode _
    | false => exact follows_opcode _
  | some body =>
    rw [hash] at known
    exact known

theorem isKnownHelper_room {compiler : Compiler} (inside : room.Of compiler) (path : PathNode) :
    compiler.isKnownHelper path = room.compiler.isKnownHelper path := by
  simp only [isKnownHelper, Room.compiler, inside.knownHelpers]

theorem follows_acceptSexprHelper {arguments : Arguments} (follow : ArgumentsFollow room first second arguments)
    (path : PathNode) (programGuid inverseGuid : Int) :
    Follows room (room.sexprHelper path (first.andThen second))
      (acceptSexprHelper platform path arguments programGuid inverseGuid) := by
  refine follows_bind (follow.setup _ _ _) fun _ => ?_
  refine follows_view fun compiler inside => ?_
  dsimp only [id]
  rw [isKnownHelper_room inside, inside.flags]
  split_ifs
  · exact (follows_nonnull _).before fun _ => follows_opcode _
  · exact follows_bind (follows_nonnull _) fun _ => follows_raise _
  · refine follows_bind (follows_path _ _) fun _ => ?_
    exact (follows_nonnull _).before fun _ => follows_opcode _

theorem follows_acceptSexprSimple (path : PathNode) :
    Follows room room.leaf (acceptSexprSimple platform path) :=
  (follows_path _ _).before fun _ => follows_opcode _

theorem follows_acceptSexprAmbiguous (path : PathNode) (programGuid inverseGuid : Int)
    (printed : Option Str) :
    Follows room (room.leaf.andThen (Room.string path.idPart))
      (acceptSexprAmbiguous platform path programGuid inverseGuid printed) := by
  refine (follows_opcode _).after fun _ => (follows_pushProgramPair _ _).after fun _ => ?_
  refine follows_bind (follows_path _ _) fun _ => follows_view fun compiler _ => ?_
  exact (follows_nonnull _).before fun _ => follows_opcode _

theorem follows_acceptSexpr {arguments : Arguments} (follow : ArgumentsFollow room first second arguments)
    (path : PathNode) (isHelperExpression : Bool) :
    Follows room (room.sexpr platform path (first.andThen second) isHelperExpression)
      (acceptSexpr platform path arguments isHelperExpression) := by
  refine follows_view fun compiler inside => ?_
  dsimp only [id]
  rw [classifySexpr_room inside, Room.sexpr]
  cases classifySexpr platform room.compiler path isHelperExpression with
  | helper => exact follows_acceptSexprHelper follow path _ _
  | simple => exact follows_acceptSexprSimple path
  | ambig => exact follows_acceptSexprAmbiguous path _ _ _

theorem follows_assignToHash (keys : List Str) : Follows room .completes (keys.forM (opS .assignToHash)) := by
  induction keys with
  | nil => exact follows_pure ()
  | cons key keys ih => exact (follows_opcode _).after fun _ => ih

theorem follows_acceptHash {values : Compile Unit} (keys : List Str) (follows : Follows room verdict values) :
    Follows room verdict (acceptHash keys values) := by
  refine (follows_opcode _).after fun _ => follows.before fun _ => ?_
  exact (follows_assignToHash _).after fun _ => follows_opcode _

mutual

theorem follows_acceptParam (room : Room) (param : Param) :
    Follows room (visitParam platform room param) (acceptParam platform param) := by
  cases param with
  | name name => exact follows_acceptName name
  | sexpr loc path params hash =>
    rw [visitParam, acceptParam]
    refine follows_located loc ?_
    exact follows_acceptSexpr ⟨follows_pushParams _ params, follows_acceptHashOption _ hash⟩ _ _

theorem follows_pushParams (room : Room) (params : List Param) :
    Follows room (visitParams platform room params) (pushParams platform params) := by
  cases params with
  | nil => exact follows_pure ()
  | cons param rest =>
    exact follows_bind (follows_pushParam param (follows_acceptParam room param)) fun _ =>
      follows_pushParams room rest

theorem follows_acceptHashOption (room : Room) (hash : Option HashNode) :
    match acceptHashOption platform hash with
      | none => visitHashOption platform room hash = .completes
      | some body => Follows room (visitHashOption platform room hash) body := by
  cases hash with
  | none => rfl
  | some hash => exact follows_acceptHashNode room hash

theorem follows_acceptHashNode (room : Room) (hash : HashNode) :
    Follows room (visitHashNode platform room hash) (acceptHashNode platform hash) := by
  cases hash with
  | mk loc pairs =>
    rw [visitHashNode, acceptHashNode]
    refine follows_located loc ?_
    exact follows_acceptHash _ (follows_pushPairs _ pairs)

theorem follows_pushPairs (room : Room) (pairs : List HashPair) :
    Follows room (visitPairs platform room pairs) (pushPairs platform pairs) := by
  cases pairs with
  | nil => exact follows_pure ()
  | cons pair rest =>
    cases pair with
    | mk key value =>
      exact follows_bind (follows_pushParam value (follows_acceptParam room value)) fun _ =>
        follows_pushPairs room rest

end

theorem follows_argumentsOf (room : Room) (params : List Param) (hash : Option HashNode) :
    ArgumentsFollow room (visitParams platform room params) (visitHashOption platform room hash)
      (argumentsOf platform params hash) :=
  ⟨follows_pushParams room params, follows_acceptHashOption room hash⟩

theorem present_argumentsOf (params : List Param) (hash : Option HashNode) :
    (argumentsOf platform params hash).present = hasArguments params hash := by
  cases hash <;> rfl

/-- Without a source node stack no node is accepted. -/
theorem located_lost {body : Compile Unit} (lost : compiler.sns = none) (loc : LocInfo) :
    (located loc body compiler).1 = .aborted compiler := by
  unfold located
  rw [Proc.bind_read, lost]
  rfl

theorem acceptParam_lost (lost : compiler.sns = none) (param : Param) :
    (acceptParam platform param compiler).1 = .aborted compiler := by
  cases param with
  | name name =>
    cases name with
    | path node => exact located_lost lost _
    | literal type loc value => exact located_lost lost _
  | sexpr loc path params hash =>
    rw [acceptParam]
    exact located_lost lost _

theorem bind_aborted_outcome {first : Compile α} {next : α → Compile β}
    (ended : (first compiler).1 = .aborted after) : ((first >>= next) compiler).1 = .aborted after := by
  rw [Proc.bind_outcome, ended]

/-- The compiler of an alternate decorator -/
def detached : Compiler := { flags := 0, knownHelpers := builtinsNames }

theorem pushProgram_ran (guid : Int) (compiler : Compiler) :
    ∃ after, (pushProgram guid compiler).1 = .ok () after ∧ after.sns = compiler.sns := by
  unfold pushProgram
  split_ifs
  · exact ⟨_, rfl, rfl⟩
  · exact ⟨_, rfl, rfl⟩

theorem pushProgramPair_ran (programGuid inverseGuid : Int) (compiler : Compiler) :
    ∃ after, (pushProgramPair programGuid inverseGuid compiler).1 = .ok () after ∧
      after.sns = compiler.sns := by
  obtain ⟨middle, first, same⟩ := pushProgram_ran programGuid compiler
  obtain ⟨after, second, again⟩ := pushProgram_ran inverseGuid middle
  refine ⟨after, ?_, again.trans same⟩
  unfold pushProgramPair
  rw [Proc.bind_outcome, first]
  exact second

theorem registerDecorator_detached (original : Option Str) (params : List Param) (hash : Option HashNode)
    (programGuid inverseGuid : Int) (present : hasArguments params hash = true) :
    ∃ after, (registerDecorator original (argumentsOf platform params hash) programGuid inverseGuid
      detached).1 = .aborted after := by
  cases params with
  | cons param rest =>
    have pushed : (pushParam platform param (acceptParam platform param) detached).1 = .aborted detached :=
      acceptParam_lost rfl param
    exact ⟨detached, bind_aborted_outcome (bind_aborted_outcome (bind_aborted_outcome pushed))⟩
  | nil =>
    cases hash with
    | none => cases present
    | some hash =>
      obtain ⟨middle, pair, lost⟩ := pushProgramPair_ran programGuid inverseGuid detached
      have ended : (acceptHashNode platform hash middle).1 = .aborted middle := by
        cases hash with
        | mk loc pairs =>
          rw [acceptHashNode]
          exact located_lost lost loc
      refine ⟨middle, bind_aborted_outcome ?_⟩
      change ((pushProgramPair programGuid inverseGuid >>= fun _ => acceptHashNode platform hash) detached).1 = _
      rw [Proc.bind_outcome, pair]
      exact ended

theorem registerDecorator_bare (original : Option Str) (params : List Param)
    (hash : Option HashNode) (programGuid inverseGuid : Int)
    (bare : hasArguments params hash = false) :
    ∃ after, (registerDecorator original (argumentsOf platform params hash) programGuid inverseGuid
      detached).1 = match original with
        | some _ => .ok () after
        | none => .aborted after := by
  cases params with
  | cons param rest => simp [hasArguments] at bare
  | nil =>
    cases hash with
    | some hash => cases bare
    | none =>
      obtain ⟨middle, pair, -⟩ := pushProgramPair_ran programGuid inverseGuid detached
      change ∃ after, (((pushProgramPair programGuid inverseGuid >>= fun _ => opN .emptyHash) >>= fun _ =>
        nonnull original >>= fun _ => opcode _) detached).1 = _
      rw [Proc.bind_outcome, Proc.bind_outcome, pair]
      cases original with
      | none => exact ⟨_, rfl⟩
      | some text => exact ⟨_, rfl⟩

theorem follows_alternateDecorator (original : Option Str) (params : List Param)
    (hash : Option HashNode) (programGuid inverseGuid : Int) :
    Follows room ((if hasArguments params hash then Verdict.breaks else .completes).andThen
        (Room.string original))
      (alternateDecorator
        (registerDecorator original (argumentsOf platform params hash) programGuid inverseGuid)) := by
  intro compiler inside
  unfold Ends alternateDecorator within
  cases present : hasArguments params hash with
  | true =>
    obtain ⟨after, ran⟩ := registerDecorator_detached original params hash programGuid inverseGuid present
    dsimp only [detached] at ran
    dsimp only
    rw [ran]
    exact ⟨_, rfl⟩
  | false =>
    obtain ⟨after, ran⟩ := registerDecorator_bare original params hash programGuid inverseGuid present
    dsimp only [detached] at ran
    dsimp only
    rw [ran]
    cases original with
    | none => exact ⟨_, rfl⟩
    | some text => exact ⟨_, _, rfl, rfl, rfl, rfl, rfl⟩

theorem follows_acceptDecorator (original : Option Str) (params : List Param) (hash : Option HashNode)
    (programGuid inverseGuid : Int) :
    Follows room (room.decorator original (visitArguments platform room params hash) (hasArguments params hash))
      (acceptDecorator original (argumentsOf platform params hash) programGuid inverseGuid) := by
  refine (follows_addResultFlag _).after fun _ => follows_view fun compiler inside => ?_
  rw [Room.decorator, inside.flags]
  cases room.flags.has Flag.alternateDecorators with
  | true => exact follows_alternateDecorator original params hash _ _
  | false =>
    refine follows_bind ((follows_argumentsOf room params hash).setup _ _ _) fun _ => ?_
    exact (follows_nonnull original).before fun _ => follows_opcode _

theorem follows_acceptBlockSexpr (path : PathNode) (params : List Param) (hash : Option HashNode)
    (programGuid inverseGuid : Int) (printed : Option Str) :
    Follows room (room.blockSexpr platform path (visitArguments platform room params hash)
        (hasArguments params hash))
      (acceptBlockSexpr platform path (argumentsOf platform params hash) programGuid inverseGuid printed) := by
  refine follows_view fun compiler inside => Follows.before ?_ fun _ => follows_opcode _
  dsimp only [id]
  rw [classifySexpr_room inside, present_argumentsOf, Room.blockSexpr]
  cases classifySexpr platform room.compiler path (hasArguments params hash) with
  | helper => exact follows_acceptSexprHelper (follows_argumentsOf room params hash) path _ _
  | simple =>
    refine follows_bind (follows_acceptSexprSimple path) fun _ => ?_
    refine (follows_pushProgramPair _ _).after fun _ => (follows_opcode _).after fun _ => ?_
    exact (follows_nonnull _).before fun _ => follows_opcode _
  | ambig =>
    refine (follows_acceptSexprAmbiguous path _ _ _).before fun _ => ?_
    refine (follows_pushProgramPair _ _).after fun _ => (follows_opcode _).after fun _ => ?_
    exact follows_opcode _

theorem follows_acceptMustache (path : HelperName) (params : List Param) (hash : Option HashNode)
    (unescaped isDecorator : Bool) :
    Follows room (if isDecorator then
        room.decorator path.stringModeValue (visitArguments platform room params hash) (hasArguments params hash)
      else room.sexpr platform path.toPath (visitArguments platform room params hash) (hasArguments params hash))
      (acceptMustache platform path (argumentsOf platform params hash) unescaped isDecorator) := by
  cases isDecorator with
  | true => exact follows_acceptDecorator _ params hash _ _
  | false =>
    change Follows room _ (acceptSexpr platform path.toPath (argumentsOf platform params hash)
      (argumentsOf platform params hash).present >>= _)
    rw [present_argumentsOf]
    refine (follows_acceptSexpr (follows_argumentsOf room params hash) _ _).before fun _ => ?_
    refine follows_view fun compiler _ => ?_
    split_ifs
    · exact follows_opcode _
    · exact follows_opcode _

theorem follows_partialNameOperand (name : Param) :
    Follows room (visitPartialName name) (partialNameOperand platform name) := by
  cases name with
  | sexpr loc path params hash => exact follows_pure _
  | name name =>
    cases name with
    | path node => exact (follows_nonnull _).before fun _ => follows_pure _
    | literal type loc value =>
      cases type with
      | number =>
        unfold partialNameOperand
        dsimp only
        cases platform.numberLong value with
        | none => exact follows_pure _
        | some long => exact follows_pure _
      | boolean | nul | string | undefined => exact follows_pure (Operand.string value)

theorem follows_whenOpcode (condition : Bool) (op : Opcode) :
    Follows room .completes (Proc.when condition (opcode op)) := by
  cases condition with
  | true => exact follows_opcode _
  | false => exact follows_pure ()

theorem follows_emitInvokePartial (name : Param) (isDynamic : Bool) (indent : Option Str) :
    Follows room (visitPartialName name) (emitInvokePartial platform name isDynamic indent) := by
  refine follows_view fun compiler _ => ?_
  refine (follows_whenOpcode _ _).after fun _ => (follows_partialNameOperand name).before fun _ => ?_
  exact (follows_opcode _).after fun _ => follows_opcode _

theorem Verdict.andThen_assoc (first second third : Verdict) :
    (first.andThen second).andThen third = first.andThen (second.andThen third) := by
  cases first <;> rfl

theorem follows_partialArguments (room : Room) (params : List Param) (hash : Option HashNode)
    (isExplicit : Bool) :
    ArgumentsFollow room (if params.length = 0 ∧ isExplicit = false then
        room.pushParam platform missingParam (visitParam platform room missingParam)
      else visitParams platform room params) (visitHashOption platform room hash)
      (partialArguments platform (argumentsOf platform params hash) isExplicit) := by
  unfold partialArguments
  by_cases missing : params.length = 0 ∧ isExplicit = false
  · rw [if_pos missing]
    have same : (argumentsOf platform params hash).count = 0 ∧ isExplicit = false := missing
    rw [if_pos same]
    exact ⟨follows_pushParam _ (follows_acceptParam room _), follows_acceptHashOption room hash⟩
  · rw [if_neg missing]
    have same : ¬((argumentsOf platform params hash).count = 0 ∧ isExplicit = false) := missing
    rw [if_neg same]
    exact follows_argumentsOf room params hash

theorem follows_acceptPartial (loc : LocInfo) (name : Param) (params : List Param) (hash : Option HashNode)
    {program : Option (Compile Unit)} (indent : Option Str)
    (inner : match program with
      | none => verdict = .completes
      | some body => Follows room verdict body) :
    Follows room (visitPartial platform room name params hash verdict)
      (acceptPartial platform loc name (acceptParam platform name) (argumentsOf platform params hash) program
        indent) := by
  refine (follows_addResultFlag _).after fun _ => follows_view fun compiler inside => ?_
  rw [inside.flags, visitPartial]
  by_cases many : params.length > 1
  · rw [if_pos many]
    have same : (argumentsOf platform params hash).count > 1 := many
    rw [if_pos same]
    exact follows_raise _
  · rw [if_neg many]
    have same : ¬(argumentsOf platform params hash).count > 1 := many
    rw [if_neg same]
    refine (follows_whenOpcode _ _).after fun _ => ?_
    refine follows_bind (follows_when _ (follows_acceptParam room name)) fun _ => ?_
    refine follows_bind (follows_compileProgram inner) fun guid => ?_
    rw [← Verdict.andThen_assoc]
    exact follows_bind ((follows_partialArguments room params hash _).setup _ _ _) fun _ =>
      follows_emitInvokePartial _ _ _

mutual

theorem follows_acceptStatement (room : Room) (statement : Statement) :
    Follows room (visitStatement platform room statement) (acceptStatement platform statement) := by
  cases statement with
  | block loc path params hash program inverse isDecorator =>
    rw [visitStatement, acceptStatement]
    refine follows_located loc ?_
    refine follows_bind (follows_compileProgram (follows_acceptNodeOption _ program)) fun programGuid => ?_
    cases isDecorator with
    | true => exact follows_acceptDecorator _ params hash _ _
    | false =>
      refine follows_bind (follows_compileProgram (follows_acceptNodeOption _ inverse)) fun inverseGuid => ?_
      exact follows_acceptBlockSexpr _ params hash _ _ _
  | rawBlock loc path params hash program inverse =>
    rw [visitStatement, acceptStatement]
    refine follows_located loc ?_
    refine follows_bind (follows_compileProgram (follows_acceptNodeOption _ program)) fun programGuid => ?_
    refine follows_bind (follows_compileProgram (follows_acceptNodeOption _ inverse)) fun inverseGuid => ?_
    exact follows_acceptBlockSexpr _ params hash _ _ _
  | mustache loc path params hash unescaped isDecorator =>
    rw [visitStatement, acceptStatement]
    exact follows_located loc (follows_acceptMustache path params hash unescaped isDecorator)
  | partialCall loc name params hash indent =>
    rw [visitStatement, acceptStatement]
    exact follows_located loc (follows_acceptPartial loc name params hash indent rfl)
  | partialBlock loc name params hash program =>
    rw [visitStatement, acceptStatement]
    refine follows_located loc ?_
    exact follows_acceptPartial loc name params hash none (follows_acceptNodeOption _ program)
  | content loc value =>
    rw [visitStatement, acceptStatement]
    refine follows_leaf loc ?_
    unfold acceptContent
    split_ifs
    · exact follows_opcode _
    · exact follows_pure ()
  | comment loc =>
    rw [visitStatement, acceptStatement]
    exact follows_leaf loc (follows_pure ())

theorem follows_acceptStatements (room : Room) (statements : List Statement) :
    Follows room (visitStatements platform room statements) (acceptStatements platform statements) := by
  cases statements with
  | nil => exact follows_pure ()
  | cons statement rest =>
    exact follows_bind (follows_acceptStatement room statement) fun _ => follows_acceptStatements room rest

theorem follows_acceptNode (room : Room) (node : ProgramNode) :
    Follows room (visitNode platform room node) (acceptNode platform node) := by
  cases node with
  | mk loc printed statements blockParam1 blockParam2 =>
    rw [visitNode, acceptNode]
    exact follows_located loc (follows_acceptProgram _ _ _ (follows_acceptStatements _ statements))

theorem follows_acceptNodeOption (room : Room) (node : Option ProgramNode) :
    match acceptNodeOption platform node with
      | none => visitNodeOption platform room node = .completes
      | some body => Follows room (visitNodeOption platform room node) body := by
  cases node with
  | none => rfl
  | some node => exact follows_acceptNode room node

end

end Rules

/-- A compilation returns or throws: it does not end at a place outside of a node stack, at a stack
that is not there or at a NULL string. Each node and each program leaves the stacks as it found them. -/
structure CompilesSafely (platform : Platform) (flags : Flags) (knownHelpers : List Str)
    (node : ProgramNode) : Prop where
  ends : (∃ after, (acceptNode platform node (start flags knownHelpers)).1 = .ok () after ∧
      after.bps = some [] ∧ after.sns = some []) ∨
    ∃ after, (acceptNode platform node (start flags knownHelpers)).1 = .thrown after
  restores : ∀ inner compiler scopes nodes after, compiler.bps = some scopes → compiler.sns = some nodes →
    (accept platform inner compiler).1 = .ok () after → after.bps = some scopes ∧ after.sns = some nodes

theorem follows_accept (platform : Platform) (room : Room) (node : AstNode) :
    Follows room (visit platform room node) (accept platform node) := by
  cases node with
  | program node => exact follows_acceptNode room node
  | statement statement => exact follows_acceptStatement room statement
  | param param => exact follows_acceptParam room param
  | hash hash => exact follows_acceptHashNode room hash

theorem Ends.restored {body : Compile Unit} (ends : Ends verdict body compiler)
    (ran : (body compiler).1 = .ok () after) : Restored compiler after := by
  unfold Ends at ends
  rw [ran] at ends
  cases verdict with
  | completes =>
    obtain ⟨_, last, same, restored⟩ := ends
    cases same
    exact restored
  | throws =>
    obtain ⟨_, same⟩ := ends
    cases same
  | breaks =>
    obtain ⟨_, same⟩ := ends
    cases same

theorem accept_restores (platform : Platform) (inner : AstNode) (bps : compiler.bps = some scopes)
    (sns : compiler.sns = some nodes) (ran : (accept platform inner compiler).1 = .ok () after) :
    after.bps = some scopes ∧ after.sns = some nodes := by
  have inside : Room.Of ⟨compiler.flags, compiler.knownHelpers, scopes, nodes.length⟩ compiler :=
    ⟨rfl, rfl, bps, nodes, sns, rfl⟩
  have restored := (follows_accept platform _ inner compiler inside).restored ran
  exact ⟨restored.bps.trans bps, restored.sns.trans sns⟩

theorem start_of (flags : Flags) (knownHelpers : List Str) :
    (Room.start flags knownHelpers).Of (start flags knownHelpers) := ⟨rfl, rfl, rfl, [], rfl, rfl⟩

theorem not_safe_of_breaks {flags : Flags} {knownHelpers : List Str} {node : ProgramNode}
    (breaks : visitNode platform (.start flags knownHelpers) node = .breaks) :
    ¬CompilesSafely platform flags knownHelpers node := by
  intro safe
  have ended : Ends _ (acceptNode platform node) _ := follows_acceptNode _ node _ (start_of flags knownHelpers)
  rw [breaks] at ended
  obtain ⟨after, aborted⟩ := ended
  rcases safe.ends with ⟨_, ran, _⟩ | ⟨_, ran⟩
  · cases aborted.symm.trans ran
  · cases aborted.symm.trans ran

/-- The compiler keeps to its node stacks exactly where the visit of the tree does. -/
theorem compilesSafely_iff (platform : Platform) (flags : Flags) (knownHelpers : List Str)
    (node : ProgramNode) :
    CompilesSafely platform flags knownHelpers node ↔
      visitNode platform (.start flags knownHelpers) node ≠ .breaks := by
  constructor
  · exact fun safe breaks => not_safe_of_breaks breaks safe
  · intro whole
    have ended : Ends _ (acceptNode platform node) _ := follows_acceptNode _ node _ (start_of flags knownHelpers)
    refine ⟨?_, fun inner _ _ _ _ => accept_restores platform inner⟩
    cases verdict : visitNode platform (.start flags knownHelpers) node with
    | completes =>
      rw [verdict] at ended
      obtain ⟨_, after, ran, restored⟩ := ended
      exact .inl ⟨after, ran, restored.bps, restored.sns⟩
    | throws =>
      rw [verdict] at ended
      exact .inr ended
    | breaks => exact absurd verdict whole

/-- Blocks in one another -/
def nestedBlocks : Nat → Statement
  | 0 => .comment LocInfo.zero
  | n + 1 => .block LocInfo.zero (.literal .string LocInfo.zero []) [] none
      (some (.mk LocInfo.zero [] [nestedBlocks n] none none)) none false

def barePlatform : Platform where
  hash := fun _ => 0
  numberLong := fun _ => none
  scanLong10 := fun _ => 0
  formatDouble := fun _ => []

/-- The 32nd program inside of another takes the place behind the last one, and the compiler of an
alternate decorator has no node stacks. -/
theorem not_compilesSafely :
    ¬CompilesSafely barePlatform 0 [] (.mk LocInfo.zero [] [nestedBlocks 32] none none) ∧
    ¬CompilesSafely barePlatform Flag.alternateDecorators [] (.mk LocInfo.zero []
      [.mustache LocInfo.zero (.literal .string LocInfo.zero [])
        [.name (.literal .string LocInfo.zero [])] none false true] none none) :=
  ⟨not_safe_of_breaks (by decide +kernel), not_safe_of_breaks (by decide)⟩

end Compiler

end HandlebarsC
