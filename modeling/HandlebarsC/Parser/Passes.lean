import HandlebarsC.Parser.Trimmed

/-!
When the whitespace pass ends, and that it may visit all statements of a list before it trims any
of them.
-/

namespace HandlebarsC.Parser

section Order

variable {nodes visited : List Node} {node after : Node} {multiple isRoot : Bool}

def Node.isContent : Node → Bool
  | .content _ => true
  | _ => false

theorem Node.accept_isContent (done : node.accept = some after) : after.isContent = node.isContent := by
  cases node with
  | block =>
    rw [Node.accept] at done
    obtain ⟨_, -, done⟩ := Option.bind_eq_some_iff.mp done
    obtain ⟨_, -, done⟩ := Option.bind_eq_some_iff.mp done
    obtain ⟨_, -, done⟩ := Option.bind_eq_some_iff.mp done
    cases done
    rfl
  | rawBlock =>
    rw [Node.accept] at done
    obtain ⟨_, -, done⟩ := Option.bind_eq_some_iff.mp done
    obtain ⟨_, -, done⟩ := Option.bind_eq_some_iff.mp done
    obtain ⟨_, -, done⟩ := Option.bind_eq_some_iff.mp done
    cases done
    rfl
  | mustache | partialCall | partialBlock | content | comment =>
    rw [Node.accept] at done
    cases done
    rfl

/-- An omission does nothing to a list that does not start with a content. -/
theorem omitRight_other (other : node.isContent = false) (rest : List Node) :
    omitRight multiple (node :: rest) = (node :: rest, false) := by
  cases node with
  | content => cases other
  | block | rawBlock | mustache | partialCall | partialBlock | comment => rfl

theorem omitRight_content (multiple : Bool) (text : Content) :
    ∃ text', ∀ rest, (omitRight multiple (.content text :: rest)).1 = .content text' :: rest := by
  by_cases before : (!multiple && text.strip.has .rightStripped) = true
  · refine ⟨text, fun rest => ?_⟩
    unfold omitRight omitNearest
    dsimp only
    rw [if_pos before]
  · refine ⟨text.stripped .rightStripped (trimRight multiple text.value), fun rest => ?_⟩
    unfold omitRight omitNearest
    dsimp only
    rw [if_neg before]

theorem acceptList_cons (node : Node) (rest : List Node) :
    acceptList (node :: rest) = node.accept.bind fun node => (acceptList rest).map (node :: ·) := by
  rw [acceptList]
  cases node.accept with
  | none => rfl
  | some node => cases acceptList rest <;> rfl

/-- A visit does not touch a content, and an omission nothing else. -/
theorem acceptList_omitRight (multiple : Bool) (nodes : List Node) :
    acceptList (omitRight multiple nodes).1 =
      (acceptList nodes).map fun visited => (omitRight multiple visited).1 := by
  cases nodes with
  | nil => rfl
  | cons node rest =>
    cases sort : node.isContent with
    | true =>
      cases node with
      | content text =>
        obtain ⟨text', kept⟩ := omitRight_content multiple text
        rw [kept, acceptList_cons, acceptList_cons, Node.accept, Node.accept]
        cases acceptList rest with
        | none => rfl
        | some rest' => exact congrArg some (kept rest').symm
      | block | rawBlock | mustache | partialCall | partialBlock | comment => cases sort
    | false =>
      rw [omitRight_other sort, acceptList_cons]
      cases visited : node.accept with
      | none => rfl
      | some node' =>
        have sort' : node'.isContent = false := (Node.accept_isContent visited).trans sort
        cases acceptList rest with
        | none => rfl
        | some rest' =>
          change some (node' :: rest') = some (omitRight multiple (node' :: rest')).1
          rw [omitRight_other sort']

/-- Visits do not change where a text is blank. -/
theorem isNextWhitespace_visited (visits : acceptList nodes = some visited) (isRoot : Bool) :
    isNextWhitespace visited isRoot = isNextWhitespace nodes isRoot := by
  cases nodes with
  | nil =>
    cases visits
    rfl
  | cons node rest =>
    rw [acceptList_cons] at visits
    obtain ⟨node', here, visits⟩ := Option.bind_eq_some_iff.mp visits
    obtain ⟨rest', later, rfl⟩ := Option.map_eq_some_iff.mp visits
    cases sort : node.isContent with
    | true =>
      cases node with
      | content text =>
        rw [Node.accept] at here
        cases here
        unfold isNextWhitespace isWhitespace
        dsimp only
        cases rest with
        | nil =>
          cases later
          rfl
        | cons next rest =>
          rw [acceptList_cons] at later
          obtain ⟨_, -, later⟩ := Option.bind_eq_some_iff.mp later
          obtain ⟨_, -, rfl⟩ := Option.map_eq_some_iff.mp later
          rfl
      | block | rawBlock | mustache | partialCall | partialBlock | comment => cases sort
    | false =>
      have sort' : node'.isContent = false := (Node.accept_isContent here).trans sort
      have plain : ∀ {node : Node} (rest : List Node), node.isContent = false →
          isNextWhitespace (node :: rest) isRoot = false := by
        intro node rest other
        cases node with
        | content => cases other
        | block | rawBlock | mustache | partialCall | partialBlock | comment => rfl
      rw [plain rest sort, plain rest' sort']

namespace Place

variable {place : Place}

/-- The place with the statements behind it visited -/
def visit (place : Place) : Option Place :=
  (acceptList place.behind).map fun behind => { place with behind := behind }

/-- A step that may come before or after the visits behind its place -/
def Commutes (step : Place → Option Place) : Prop :=
  ∀ place, (step place).bind visit = place.visit.bind step

theorem Commutes.total {step : Place → Place}
    (same : ∀ place, (step place).visit = place.visit.map step) : Commutes fun place => some (step place) := by
  intro place
  rw [Option.bind_some, same]
  exact Option.map_eq_bind

theorem Commutes.bind {first second : Place → Option Place} (start : Commutes first)
    (rest : Commutes second) : Commutes fun place => (first place).bind second := by
  intro place
  have inner : (fun place => (second place).bind visit) = fun place => place.visit.bind second :=
    funext rest
  rw [Option.bind_assoc, inner, ← Option.bind_assoc, start, Option.bind_assoc]

theorem Commutes.ite {step : Place → Option Place} (commutes : Commutes step) (condition : Bool) :
    Commutes fun place => if condition then step place else some place := by
  cases condition with
  | true => exact commutes
  | false => exact .total fun place => Option.map_id'.symm

theorem Commutes.choice {step : Place → Place} (commutes : Commutes fun place => some (step place))
    (condition : Bool) : Commutes fun place => some (if condition then step place else place) := by
  cases condition with
  | true => exact commutes
  | false => exact .total fun place => Option.map_id'.symm

theorem omitRight_commutes (multiple : Bool) : Commutes fun place => some (place.omitRight multiple) := by
  refine .total fun place => ?_
  unfold visit Place.omitRight
  rw [acceptList_omitRight, Option.map_map, Option.map_map]
  rfl

theorem omitLeft_commutes (multiple : Bool) : Commutes fun place => some (place.omitLeft multiple) := by
  refine .total fun place => ?_
  unfold visit Place.omitLeft
  rw [Option.map_map]
  rfl

theorem inlined_commutes : Commutes fun place => some place.inlined := by
  refine .total fun place => ?_
  unfold inlined visit Place.omitRight
  dsimp only
  rw [acceptList_omitRight, Option.map_map, Option.map_map]
  rfl

theorem opened_commutes : Commutes opened := by
  intro place
  unfold opened visit Place.omitLeft
  cases opens : place.current.opened <;> cases visits : acceptList place.behind <;>
    simp [opens, visits]

theorem closed_commutes : Commutes closed := by
  intro place
  have behind := acceptList_omitRight false place.behind
  unfold closed visit Place.omitRight
  cases closes : place.current.closed <;> cases visits : acceptList place.behind <;>
    simp [closes, behind, visits]

theorem around_commutes (strip : StripFlags) (isPrev isNext : Bool) :
    Commutes (·.around strip isPrev isNext) :=
  (((((omitRight_commutes true).choice (strip.has .right)).bind
    ((omitLeft_commutes true).choice (strip.has .left))).bind
    (inlined_commutes.choice (strip.has .inlineStandalone && isPrev && isNext))).bind
    (opened_commutes.ite (strip.has .openStandalone && isPrev))).bind
    (closed_commutes.ite (strip.has .closeStandalone && isNext))

/-- Trimming around a statement and visiting the statements behind it come to the same in any
order. -/
theorem trimmed_commutes (isRoot : Bool) : Commutes (·.trimmed isRoot) := by
  intro place
  have inside := around_commutes place.current.strip (isPrevWhitespace place.before isRoot)
    (isNextWhitespace place.behind isRoot) place
  dsimp only at inside ⊢
  unfold trimmed
  cases visits : acceptList place.behind with
  | none =>
    have nothing : place.visit = none := by rw [visit, visits, Option.map_none]
    rw [nothing] at inside ⊢
    split
    · exact nothing
    · exact inside
  | some visited =>
    have there : place.visit = some { place with behind := visited } := by
      rw [visit, visits, Option.map_some]
    rw [there, Option.bind_some] at inside ⊢
    dsimp only
    rw [isNextWhitespace_visited visits]
    split
    · exact there
    · exact inside

end Place

theorem Omitted.length {allowed : Bool → Prop} (omitted : Omitted allowed nodes visited) :
    visited.length = nodes.length :=
  (altersList_iff.mp omitted).length_eq.symm

theorem trimmed_length {place last : Place} (done : place.trimmed isRoot = some last) :
    last.behind.length = place.behind.length := by
  have omitted : place.Omitted (fun _ => True) last := Place.trimmed_omits trivial (fun _ => trivial) done
  exact omitted.behind.length

theorem acceptList_length (visits : acceptList nodes = some visited) :
    visited.length = nodes.length := by
  have omitted : Omitted (fun _ => True) nodes visited :=
    (acceptList_alters trivial nodes (fun _ => trivial) visits).1
  exact omitted.length

theorem acceptEach_count {before nodes : List Node} {count : Nat} (counted : nodes.length = count) :
    acceptEach Node.accept isRoot before count nodes =
      (acceptList nodes).bind (trimStatements isRoot before count) := by
  induction count generalizing before nodes with
  | zero =>
    cases List.length_eq_zero_iff.mp counted
    rfl
  | succ count ih =>
    cases nodes with
    | nil => cases counted
    | cons current behind =>
      have short : behind.length = count := Nat.succ.inj counted
      rw [acceptEach, acceptList_cons, Option.bind_assoc]
      refine Option.bind_congr fun current _ => ?_
      have later : ∀ place, Place.trimmed ⟨before, current, behind⟩ isRoot = some place →
          acceptEach Node.accept isRoot (place.current :: place.before) count place.behind =
            place.visit.bind fun place =>
              trimStatements isRoot (place.current :: place.before) count place.behind := by
        intro place trimmed
        rw [ih ((trimmed_length trimmed).trans short), Place.visit, Option.bind_map]
        rfl
      change (Place.trimmed ⟨before, current, behind⟩ isRoot).bind _ = _
      rw [Option.bind_congr later, ← Option.bind_assoc,
        Place.trimmed_commutes isRoot ⟨before, current, behind⟩, Place.visit]
      cases acceptList behind <;> rfl

/-- The loop of the source, which visits a statement just before it trims around it, does what all
visits before all trims do. -/
theorem acceptEach_eq (isRoot : Bool) (before nodes : List Node) :
    acceptEach Node.accept isRoot before nodes.length nodes = (acceptList nodes).bind fun visited =>
      trimStatements isRoot before visited.length visited := by
  rw [acceptEach_count rfl]
  refine Option.bind_congr fun visited visits => ?_
  rw [acceptList_length visits]

end Order

section Reached

variable {R : Content → Content → Prop} {program inverse program' inverse' after : ProgramTree}
  {raw multiple isRoot : Bool} {marks : BlockMarks} {node last : Node}

/-- The list of statements is there. -/
def ProgramTree.listed (program : ProgramTree) : Bool := program.statements.isSome

theorem ProgramTree.Alters.listed (alters : program.Alters R after) : after.listed = program.listed := by
  cases alters with
  | mk inside => cases inside <;> rfl

theorem ProgramTree.Alters.chained (alters : program.Alters R after) :
    after.chained = program.chained := by
  cases alters
  rfl

/-- A step that a mark makes, on a list that must be there then. -/
structure Guarded (mark : Bool) (step : ProgramTree → Option ProgramTree) : Prop where
  runs : ∀ program : ProgramTree, (step program).isSome = (!mark || program.listed)
  kept : ∀ program after, step program = some after → after.listed = program.listed

theorem omitFirst_isSome (multiple : Bool) (program : ProgramTree) :
    (program.omitFirst multiple).isSome = program.listed := Option.isSome_map

theorem omitLast_isSome (multiple : Bool) (program : ProgramTree) :
    (program.omitLast multiple).isSome = program.listed := Option.isSome_map

theorem isSome_wrap (result : Option α) (wrap : α → β) :
    (result.bind fun value => pure (wrap value)).isSome = result.isSome := by
  cases result <;> rfl

theorem guarded_omitFirst (strip flag : StripFlags) (multiple : Bool) :
    Guarded (strip.has flag) (trimAt strip flag (·.omitFirst multiple)) where
  runs program := by
    unfold trimAt
    cases strip.has flag with
    | true => exact omitFirst_isSome multiple program
    | false => rfl
  kept program after done := by
    have omitted : program.Omitted (fun _ => True) after :=
      trimAt_omits (fun _ => ProgramTree.omitFirst_omits trivial) done
    exact omitted.listed

theorem guarded_omitLast (strip flag : StripFlags) (multiple : Bool) :
    Guarded (strip.has flag) (trimAt strip flag (·.omitLast multiple)) where
  runs program := by
    unfold trimAt
    cases strip.has flag with
    | true => exact omitLast_isSome multiple program
    | false => rfl
  kept program after done := by
    have omitted : program.Omitted (fun _ => True) after :=
      trimAt_omits (fun _ => ProgramTree.omitLast_omits trivial) done
    exact omitted.listed

/-- A step and whatever comes then, which runs on any program that is as much there. -/
theorem Guarded.bind_isSome {mark condition : Bool} {step : ProgramTree → Option ProgramTree}
    {next : ProgramTree → Option α} (guarded : Guarded mark step)
    (rest : ∀ after, after.listed = program.listed → (next after).isSome = condition) :
    ((step program).bind next).isSome = ((!mark || program.listed) && condition) := by
  rw [← guarded.runs]
  cases done : step program with
  | none => rfl
  | some after => exact rest after (guarded.kept program after done)

theorem startsBlank_listed (starts : startsBlank program.statements = true) : program.listed = true := by
  unfold ProgramTree.listed
  cases present : program.statements with
  | none =>
    rw [present] at starts
    cases starts
  | some nodes => rfl

theorem endsBlank_listed (ends : endsBlank program.statements = true) : program.listed = true := by
  unfold ProgramTree.listed
  cases present : program.statements with
  | none =>
    rw [present] at ends
    cases ends
  | some nodes => rfl

/-- What is blank is there. -/
theorem trimElse_isSome (program inverse : ProgramTree) :
    (trimElse raw program inverse).isSome = true := by
  unfold trimElse
  split
  · rfl
  · rename_i first found
    split
    · rename_i blank
      obtain ⟨ends, starts⟩ := Bool.and_eq_true_iff.mp blank
      have there : (program.omitLast false).isSome = true :=
        (omitLast_isSome false program).trans (endsBlank_listed ends)
      have there' : (first.omitFirst false).isSome = true :=
        (omitFirst_isSome false first).trans (startsBlank_listed starts)
      obtain ⟨program', trimmed⟩ := Option.isSome_iff_exists.mp there
      obtain ⟨first', trimmed'⟩ := Option.isSome_iff_exists.mp there'
      rw [trimmed, trimmed']
      rfl
    · rfl

/-- The strip marks of a block are next to lists that are there. -/
def blockReaches (marks : BlockMarks) : Option ProgramTree → Option ProgramTree → Bool
  | some program, some inverse =>
    (!marks.openStrip.has .right || program.listed) &&
      ((!marks.inverseStrip.has .left || program.listed) &&
        ((!marks.inverseStrip.has .right || inverse.listed) &&
          ((!marks.closeStrip.has .left || inverse.listed) && true)))
  | some program, none | none, some program =>
    (!marks.openStrip.has .right || program.listed) && (!marks.closeStrip.has .left || program.listed)
  | none, none => true

theorem trimOnly_isSome (marks : BlockMarks) (program : ProgramTree) :
    (trimOnly marks program).isSome = ((!marks.openStrip.has .right || program.listed) &&
      (!marks.closeStrip.has .left || program.listed)) := by
  refine (guarded_omitFirst _ _ true).bind_isSome fun after same => ?_
  rw [← same]
  exact (guarded_omitLast _ _ true).runs after

theorem trimBlock_isSome (marks : BlockMarks) (program inverse : Option ProgramTree) :
    (trimBlock raw marks program inverse).isSome = blockReaches marks program inverse := by
  unfold trimBlock blockReaches
  cases program with
  | none =>
    cases inverse with
    | none => rfl
    | some inverse => exact (isSome_wrap _ _).trans (trimOnly_isSome marks inverse)
  | some program =>
    cases inverse with
    | none => exact (isSome_wrap _ _).trans (trimOnly_isSome marks program)
    | some inverse =>
      refine (isSome_wrap _ _).trans ?_
      refine (guarded_omitFirst _ _ true).bind_isSome fun opened same => ?_
      rw [← same]
      refine (guarded_omitLast _ _ true).bind_isSome fun left _ => ?_
      refine (guarded_omitFirst _ _ true).bind_isSome fun right same => ?_
      rw [← same]
      exact (guarded_omitLast _ _ true).bind_isSome fun closed _ => trimElse_isSome left closed

theorem AltersOption.isSome {first second : Option ProgramTree} (alters : AltersOption R first second) :
    second.isSome = first.isSome := by
  cases alters <;> rfl

theorem AltersOption.all_listed {first second : Option ProgramTree}
    (alters : AltersOption R first second) :
    second.all (·.listed) = first.all (·.listed) := by
  cases alters with
  | none => rfl
  | some program => exact program.listed

/-- The program at the start of a block is there, as far as the block has one. -/
def Node.opens : Node → Bool
  | .block _ _ _ _ program inverse => (program.or inverse).all (·.listed)
  | _ => true

/-- The program at the end of a block is there, as far as the block has one. -/
def Node.closes : Node → Bool
  | .block _ _ _ _ program inverse => (inverse.or program).all (·.listed)
  | _ => true

/-- The flags of a block that stands alone tell of programs that are there. -/
structure Node.Sound (node : Node) : Prop where
  opens : node.strip.has .openStandalone = true → node.opens = true
  closes : node.strip.has .closeStandalone = true → node.closes = true

theorem all_or {first second first' second' : Option ProgramTree} (inner : AltersOption R first first')
    (outer : AltersOption R second second') :
    (first'.or second').all (·.listed) = (first.or second).all (·.listed) := by
  cases inner with
  | none => exact outer.all_listed
  | some program => exact program.listed

theorem Node.Alters.opens (alters : node.Alters R last) : last.opens = node.opens := by
  cases alters with
  | block inner outer => exact all_or inner outer
  | _ => rfl

theorem Node.Alters.closes (alters : node.Alters R last) : last.closes = node.closes := by
  cases alters with
  | block inner outer => exact all_or outer inner
  | _ => rfl

theorem trimOne_isSome {trim : ProgramTree → Option ProgramTree} (first second : Option ProgramTree)
    (runs : ∀ program, (trim program).isSome = program.listed) :
    (trimOne trim first second).isSome = (first.or second).all (·.listed) := by
  cases first with
  | some program => exact (isSome_wrap _ _).trans (runs program)
  | none =>
    cases second with
    | some program => exact (isSome_wrap _ _).trans (runs program)
    | none => rfl

theorem Node.opened_isSome (node : Node) : node.opened.isSome = node.opens := by
  cases node with
  | block strip call marks isDecorator program inverse =>
    refine Eq.trans ?_ (trimOne_isSome program inverse (omitFirst_isSome false))
    unfold Node.opened
    dsimp only
    cases trimOne (·.omitFirst false) program inverse <;> rfl
  | _ => rfl

theorem Node.closed_isSome (node : Node) : node.closed.isSome = node.closes := by
  cases node with
  | block strip call marks isDecorator program inverse =>
    refine Eq.trans ?_ (trimOne_isSome inverse program (omitLast_isSome false))
    unfold Node.closed
    dsimp only
    cases trimOne (·.omitLast false) inverse program <;> rfl
  | _ => rfl

theorem Place.around_isSome (place : Place) {strip : StripFlags} (isPrev isNext : Bool)
    (opens : strip.has .openStandalone = true → place.current.opens = true)
    (closes : strip.has .closeStandalone = true → place.current.closes = true) :
    (place.around strip isPrev isNext).isSome = true := by
  unfold around
  dsimp only
  have right : place.Omitted (fun _ => True)
      (if strip.has .right then place.omitRight true else place) :=
    .ite fun _ => omitRight_omits trivial place
  generalize (if strip.has .right then place.omitRight true else place) = first at *
  have left : first.Omitted (fun _ => True) (if strip.has .left then first.omitLeft true else first) :=
    .ite fun _ => omitLeft_omits trivial first
  generalize (if strip.has .left then first.omitLeft true else first) = second at *
  have inline : second.Omitted (fun _ => True)
      (if strip.has .inlineStandalone && isPrev && isNext then second.inlined else second) :=
    .ite fun _ => inlined_omits trivial second
  generalize (if strip.has .inlineStandalone && isPrev && isNext then second.inlined else second) =
    third at *
  have same := ((right.trans left).trans inline).current
  rw [← same.opens] at opens
  rw [← same.closes] at closes
  have front : (if strip.has .openStandalone && isPrev then third.opened else some third).isSome =
      true := by
    split
    · rename_i alone
      exact (isSome_wrap _ _).trans
        ((Node.opened_isSome _).trans (opens (Bool.and_eq_true_iff.mp alone).1))
    · rfl
  obtain ⟨fourth, opened⟩ := Option.isSome_iff_exists.mp front
  have kept : third.Omitted (fun _ => True) fourth :=
    Omitted.optional (fun _ => opened_omits trivial) opened
  rw [← kept.current.closes] at closes
  rw [opened, Option.bind_some]
  split
  · rename_i alone
    exact (isSome_wrap _ _).trans
      ((Node.closed_isSome _).trans (closes (Bool.and_eq_true_iff.mp alone).1))
  · rfl

theorem omitRight_sound {nodes : List Node} (sound : ∀ node ∈ nodes, node.Sound) :
    ∀ node ∈ (omitRight multiple nodes).1, node.Sound := by
  cases nodes with
  | nil => exact sound
  | cons node rest =>
    cases sort : node.isContent with
    | true =>
      cases node with
      | content text =>
        obtain ⟨text', kept⟩ := omitRight_content multiple text
        rw [kept rest]
        exact List.forall_mem_cons.mpr ⟨⟨fun _ => rfl, fun _ => rfl⟩, (List.forall_mem_cons.mp sound).2⟩
      | block | rawBlock | mustache | partialCall | partialBlock | comment => cases sort
    | false =>
      rw [omitRight_other sort]
      exact sound

/-- The loop ends on statements whose flags are right. -/
theorem trimStatements_isSome {before rest : List Node} {count : Nat}
    (sound : ∀ node ∈ rest, node.Sound) : (trimStatements isRoot before count rest).isSome = true := by
  induction count generalizing before rest with
  | zero => rfl
  | succ count ih =>
    cases rest with
    | nil => rfl
    | cons current behind =>
      obtain ⟨here, later⟩ := List.forall_mem_cons.mp sound
      have runs : (Place.trimmed ⟨before, current, behind⟩ isRoot).isSome = true := by
        unfold Place.trimmed
        split
        · rfl
        · exact Place.around_isSome _ _ _ here.opens here.closes
      obtain ⟨place, step⟩ := Option.isSome_iff_exists.mp runs
      have omitted : Place.Omitted (fun _ => True) _ place :=
        Place.trimmed_omits trivial (fun _ => trivial) step
      rw [trimStatements, step]
      exact ih (omitted.kept (fun nodes => ∀ node ∈ nodes, node.Sound) (fun _ _ => omitRight_sound) later)

mutual

/-- No strip mark of a block is next to a list that is not there. -/
def Node.reaches : Node → Bool
  | .block _ _ marks _ program inverse | .rawBlock _ _ marks program inverse =>
    optionReaches program && optionReaches inverse && blockReaches marks program inverse
  | .mustache .. | .partialCall .. | .partialBlock .. | .content _ | .comment .. => true

def listReaches : List Node → Bool
  | [] => true
  | node :: rest => node.reaches && listReaches rest

def statementsReach : Option (List Node) → Bool
  | none => true
  | some nodes => listReaches nodes

def ProgramTree.reaches : ProgramTree → Bool
  | .mk _ _ statements _ _ _ => statementsReach statements

def optionReaches : Option ProgramTree → Bool
  | none => true
  | some program => program.reaches

end

mutual

/-- Chained programs have statements, as the parser makes them. -/
def Node.linked : Node → Bool
  | .block _ _ _ _ program inverse | .rawBlock _ _ _ program inverse =>
    optionLinked program && optionLinked inverse
  | .mustache .. | .partialCall .. | .partialBlock .. | .content _ | .comment .. => true

def listLinked : List Node → Bool
  | [] => true
  | node :: rest => node.linked && listLinked rest

def statementsLinked : Option (List Node) → Bool
  | none => true
  | some nodes => listLinked nodes

def ProgramTree.linked : ProgramTree → Bool
  | .mk _ _ statements _ _ chained => (!chained || statements.isSome) && statementsLinked statements

def optionLinked : Option ProgramTree → Bool
  | none => true
  | some program => program.linked

end

theorem blockReaches_alters {first second first' second' : Option ProgramTree} (marks : BlockMarks)
    (inner : AltersOption R first first') (outer : AltersOption R second second') :
    blockReaches marks first' second' = blockReaches marks first second := by
  cases inner with
  | none =>
    cases outer with
    | none => rfl
    | some program => rw [blockReaches, blockReaches, program.listed]
  | some program =>
    cases outer with
    | none => rw [blockReaches, blockReaches, program.listed]
    | some inverse => rw [blockReaches, blockReaches, program.listed, inverse.listed]

theorem has_ite (condition : Bool) (flag other : StripFlags) :
    StripFlags.has (if condition then flag else 0) other = (condition && flag.has other) := by
  cases condition with
  | true => rfl
  | false =>
    unfold StripFlags.has
    simp

/-- The standalone flags of a block are those of its programs. -/
theorem blockStrip_has (marks : BlockMarks) (program inverse : Option ProgramTree) {flag : StripFlags}
    (apart : StripFlags.left &&& flag = 0 ∧ StripFlags.right &&& flag = 0 ∧ StripFlags.has .set flag = false) :
    (blockStrip raw marks program inverse).has flag =
      ((program.or inverse).any (startsBlank ·.statements) && StripFlags.has .openStandalone flag ||
        ((if raw then (if program.isSome then inverse else none)
          else (if program.isSome then inverse else none).bind (·.firstInverse raw)).or
          (program.or inverse)).any (endsBlank ·.statements) && StripFlags.has .closeStandalone flag) := by
  unfold blockStrip
  rw [StripFlags.has_or, StripFlags.has_or, StripFlags.has_or, StripFlags.has_or, has_ite, has_ite,
    StripFlags.not_has_and apart.1, StripFlags.not_has_and apart.2.1, apart.2.2, Bool.or_false,
    Bool.or_false, Bool.false_or]

theorem all_listed_of_starts {program : Option ProgramTree}
    (starts : program.any (startsBlank ·.statements) = true) : program.all (·.listed) = true := by
  cases program with
  | none => cases starts
  | some program => exact startsBlank_listed starts

theorem all_listed_of_ends {program : Option ProgramTree}
    (ends : program.any (endsBlank ·.statements) = true) : program.all (·.listed) = true := by
  cases program with
  | none => cases ends
  | some program => exact endsBlank_listed ends

/-- The flags of a block tell of programs that are there. -/
theorem blockStrip_sound (marks : BlockMarks) (call : BlockCall) (isDecorator : Bool)
    (program inverse : Option ProgramTree)
    (chains : ∀ chain, inverse = some chain → chain.chained = true → chain.listed = true) :
    (Node.block (blockStrip false marks program inverse) call marks isDecorator program inverse).Sound where
  opens flag := by
    change (blockStrip false marks program inverse).has .openStandalone = true at flag
    rw [blockStrip_has marks program inverse (by decide)] at flag
    have no : StripFlags.has .closeStandalone .openStandalone = false := by decide
    rw [no, Bool.and_false, Bool.or_false, Bool.and_eq_true] at flag
    exact all_listed_of_starts flag.1
  closes flag := by
    change (blockStrip false marks program inverse).has .closeStandalone = true at flag
    rw [blockStrip_has marks program inverse (by decide)] at flag
    have no : StripFlags.has .openStandalone .closeStandalone = false := by decide
    rw [no, Bool.and_false, Bool.false_or, Bool.and_eq_true] at flag
    have ends := flag.1
    change (inverse.or program).all (·.listed) = true
    cases inverse with
    | none =>
      cases program with
      | none => rfl
      | some program => exact all_listed_of_ends ends
    | some chain =>
      change chain.listed = true
      cases chained : chain.chained with
      | true => exact chains chain rfl chained
      | false =>
        cases program with
        | none => exact @all_listed_of_ends (some chain) ends
        | some program =>
          have first : chain.firstInverse false = some chain := by
            unfold ProgramTree.firstInverse
            rw [chained]
            rfl
          rw [Option.isSome_some, if_pos rfl, Option.bind_some, first] at ends
          exact @all_listed_of_ends (some chain) ends

/-- A chain that is visited still has its statements. -/
theorem chains_of_alters {inverse after : Option ProgramTree} (alters : AltersOption R inverse after)
    (linked : optionLinked inverse = true) :
    ∀ chain, after = some chain → chain.chained = true → chain.listed = true := by
  rintro chain rfl chained
  cases alters with
  | some program =>
    rename_i before
    rw [program.chained] at chained
    rw [program.listed]
    obtain ⟨strip, loc, statements, blockParam1, blockParam2, isChained⟩ := before
    cases chained
    exact (Bool.and_eq_true_iff.mp linked).1

/-- A node that is visited has flags that are right. -/
theorem Node.accept_sound (linked : node.linked = true) (done : node.accept = some last) :
    last.Sound := by
  cases node with
  | block strip call marks isDecorator program inverse =>
    rw [Node.accept] at done
    obtain ⟨program', -, done⟩ := Option.bind_eq_some_iff.mp done
    obtain ⟨inverse', visited, done⟩ := Option.bind_eq_some_iff.mp done
    obtain ⟨programs, trimmed, done⟩ := Option.bind_eq_some_iff.mp done
    cases done
    have altered : AltersOption (Content.Omitted fun _ => True) inverse inverse' :=
      acceptOption_alters trivial inverse (fun _ => trivial) visited
    have sound := blockStrip_sound marks call isDecorator program' inverse'
      (chains_of_alters altered (Bool.and_eq_true_iff.mp linked).2)
    obtain ⟨inner, outer⟩ := @trimBlock_alters (fun _ => True) _ _ (fun _ => trivial) trivial _ _ _ _ trimmed
    have same : Node.Alters (Content.Omitted fun _ => True)
        (.block (blockStrip false marks program' inverse') call marks isDecorator program' inverse')
        (.block (blockStrip false marks program' inverse') call marks isDecorator programs.1 programs.2) :=
      .block inner outer
    exact ⟨fun flag => same.opens.trans (sound.opens flag),
      fun flag => same.closes.trans (sound.closes flag)⟩
  | rawBlock =>
    rw [Node.accept] at done
    obtain ⟨_, -, done⟩ := Option.bind_eq_some_iff.mp done
    obtain ⟨_, -, done⟩ := Option.bind_eq_some_iff.mp done
    obtain ⟨_, -, done⟩ := Option.bind_eq_some_iff.mp done
    cases done
    exact ⟨fun _ => rfl, fun _ => rfl⟩
  | mustache | partialCall | partialBlock | content | comment =>
    rw [Node.accept] at done
    cases done
    exact ⟨fun _ => rfl, fun _ => rfl⟩

theorem acceptList_sound (nodes : List Node) (linked : listLinked nodes = true) {visited : List Node}
    (done : acceptList nodes = some visited) : ∀ node ∈ visited, node.Sound := by
  induction nodes generalizing visited with
  | nil =>
    cases done
    simp
  | cons node rest ih =>
    obtain ⟨here, later⟩ := Bool.and_eq_true_iff.mp linked
    rw [acceptList_cons] at done
    obtain ⟨node', first, done⟩ := Option.bind_eq_some_iff.mp done
    obtain ⟨rest', others, rfl⟩ := Option.map_eq_some_iff.mp done
    exact List.forall_mem_cons.mpr ⟨Node.accept_sound here first, ih later others⟩

/-- What a block comes to, from the visits of its programs -/
theorem block_isSome {program inverse : Option ProgramTree} {visit visit' : Option (Option ProgramTree)}
    (finish : Option ProgramTree → Option ProgramTree → Option ProgramTree → Option ProgramTree → Node)
    (inner : ∀ after, visit = some after → AltersOption R program after)
    (outer : ∀ after, visit' = some after → AltersOption R inverse after) :
    (visit.bind fun program => visit'.bind fun inverse =>
      (trimBlock raw marks program inverse).bind fun programs =>
        pure (finish program inverse programs.1 programs.2)).isSome =
      (visit.isSome && visit'.isSome && blockReaches marks program inverse) := by
  cases visit with
  | none => rfl
  | some program' =>
    cases visit' with
    | none => rfl
    | some inverse' =>
      refine (isSome_wrap _ _).trans ?_
      rw [trimBlock_isSome, blockReaches_alters marks (inner _ rfl) (outer _ rfl)]
      rfl

mutual

/-- A visit of a node ends exactly if its marks reach what they trim. -/
theorem Node.accept_isSome (node : Node) (linked : node.linked = true) :
    node.accept.isSome = node.reaches := by
  cases node with
  | block strip call marks isDecorator program inverse =>
    obtain ⟨here, there⟩ := Bool.and_eq_true_iff.mp linked
    rw [Node.accept, Node.reaches, ← acceptOption_isSome program here,
      ← acceptOption_isSome inverse there]
    exact block_isSome (R := Content.Omitted fun _ => True)
      (fun program inverse program' inverse' => .block (blockStrip false marks program inverse) call
        marks isDecorator program' inverse')
      (fun after => acceptOption_alters trivial program fun _ => trivial)
      (fun after => acceptOption_alters trivial inverse fun _ => trivial)
  | rawBlock strip call marks program inverse =>
    obtain ⟨here, there⟩ := Bool.and_eq_true_iff.mp linked
    rw [Node.accept, Node.reaches, ← acceptOption_isSome program here,
      ← acceptOption_isSome inverse there]
    exact block_isSome (R := Content.Omitted fun _ => True)
      (fun program inverse program' inverse' => .rawBlock (blockStrip true marks program inverse) call
        marks program' inverse')
      (fun after => acceptOption_alters trivial program fun _ => trivial)
      (fun after => acceptOption_alters trivial inverse fun _ => trivial)
  | mustache | partialCall | partialBlock | content | comment =>
    rw [Node.accept, Node.reaches]
    rfl
termination_by structural node

theorem acceptList_isSome (nodes : List Node) (linked : listLinked nodes = true) :
    (acceptList nodes).isSome = listReaches nodes := by
  cases nodes with
  | nil => rfl
  | cons node rest =>
    obtain ⟨here, later⟩ := Bool.and_eq_true_iff.mp linked
    rw [acceptList_cons, listReaches, ← Node.accept_isSome node here, ← acceptList_isSome rest later]
    cases node.accept with
    | none => rfl
    | some node => exact Option.isSome_map
termination_by structural nodes

theorem acceptStatements_isSome (isRoot : Bool) (statements : Option (List Node))
    (linked : statementsLinked statements = true) :
    (acceptStatements isRoot statements).isSome = statementsReach statements := by
  cases statements with
  | none => rfl
  | some nodes =>
    rw [acceptStatements, statementsReach, ← acceptList_isSome nodes linked]
    cases visits : acceptList nodes with
    | none => rfl
    | some visited =>
      exact (isSome_wrap _ _).trans (trimStatements_isSome (acceptList_sound nodes linked visits))
termination_by structural statements

theorem ProgramTree.accept_isSome (isRoot : Bool) (program : ProgramTree)
    (linked : program.linked = true) : (program.accept isRoot).isSome = program.reaches := by
  obtain ⟨strip, loc, statements, blockParam1, blockParam2, chained⟩ := program
  rw [ProgramTree.accept, ProgramTree.reaches,
    ← acceptStatements_isSome isRoot statements (Bool.and_eq_true_iff.mp linked).2]
  exact isSome_wrap _ _
termination_by structural program

theorem acceptOption_isSome (program : Option ProgramTree) (linked : optionLinked program = true) :
    (acceptOption program).isSome = optionReaches program := by
  cases program with
  | none => rfl
  | some program =>
    rw [acceptOption, optionReaches, ← ProgramTree.accept_isSome false program linked]
    exact isSome_wrap _ _
termination_by structural program

end

end Reached

end HandlebarsC.Parser
