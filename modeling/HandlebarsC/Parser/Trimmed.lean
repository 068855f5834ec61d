import HandlebarsC.Foundation.Trims
import HandlebarsC.Parser.Alters
import HandlebarsC.Parser.Whitespace
import Mathlib.Logic.Relation

/-!
What the whitespace pass does to a tree: it changes contents by omissions and nothing else that
the compiler reads, but for the indent of partials.
-/

namespace HandlebarsC.Parser

open Relation
open Strings (Object)

namespace StripFlags

variable {strip other flag : StripFlags}

theorem has_or : has (strip ||| other) flag = (has strip flag || has other flag) := by
  have distributed : (strip ||| other) &&& flag = (strip &&& flag) ||| (other &&& flag) :=
    UInt32.toBitVec_inj.mp BitVec.and_or_distrib_right
  unfold has
  rw [distributed, Bool.eq_iff_iff]
  simp only [bne_iff_ne, Bool.or_eq_true, ne_eq, UInt32.or_eq_zero_iff]
  tauto

theorem has_and (inside : other &&& flag = flag) : has (strip &&& other) flag = has strip flag := by
  unfold has
  rw [UInt32.and_assoc, inside]

theorem not_has_and (apart : other &&& flag = 0) : has (strip &&& other) flag = false := by
  unfold has
  rw [UInt32.and_assoc, apart, UInt32.and_zero]
  rfl

/-- A strip mark on either side -/
def marked (strip : StripFlags) : Bool := has strip .left || has strip .right

theorem marked_or (apart : marked other = false) : marked (strip ||| other) = marked strip := by
  unfold marked at *
  rw [Bool.or_eq_false_iff] at apart
  rw [has_or, has_or, apart.1, apart.2, Bool.or_false, Bool.or_false]

end StripFlags

section Omissions

/-- What one omission does to a content; those of strip marks may be forbidden. -/
inductive Content.Omits (allowed : Bool → Prop) : Content → Content → Prop
  | left (text : Content) (multiple : Bool) (may : allowed multiple)
      (fresh : multiple = false → text.strip.has .leftStripped = false) :
    Omits allowed text (text.stripped .leftStripped (trimLeft multiple text.value))
  | right (text : Content) (multiple : Bool) (may : allowed multiple)
      (fresh : multiple = false → text.strip.has .rightStripped = false) :
    Omits allowed text (text.stripped .rightStripped (trimRight multiple text.value))

/-- What omissions do to a content -/
def Content.Omitted (allowed : Bool → Prop) : Content → Content → Prop :=
  ReflTransGen (Content.Omits allowed)

variable {allowed : Bool → Prop} {nodes : List Node} {multiple : Bool}
  {program inverse after : ProgramTree}

theorem Content.Omitted.refl (text : Content) : Content.Omitted allowed text text := ReflTransGen.refl

theorem Content.Omitted.trans {first second third : Content}
    (start : Content.Omitted allowed first second) (rest : Content.Omitted allowed second third) :
    Content.Omitted allowed first third := ReflTransGen.trans start rest

/-- A list of nodes after omissions -/
abbrev Omitted (allowed : Bool → Prop) (nodes after : List Node) : Prop :=
  AltersList (Content.Omitted allowed) nodes after

/-- A program after omissions -/
abbrev ProgramTree.Omitted (allowed : Bool → Prop) (program after : ProgramTree) : Prop :=
  program.Alters (Content.Omitted allowed) after

theorem Omitted.refl (nodes : List Node) : Omitted allowed nodes nodes :=
  altersList_refl Content.Omitted.refl nodes

theorem ProgramTree.Omitted.refl (program : ProgramTree) : program.Omitted allowed program :=
  ProgramTree.Alters.refl Content.Omitted.refl program

theorem ProgramTree.Omitted.trans {middle : ProgramTree} (first : program.Omitted allowed middle)
    (second : middle.Omitted allowed after) : program.Omitted allowed after :=
  ProgramTree.Alters.trans Content.Omitted.trans first second

theorem omitNearest_omits {flag : StripFlags} {trim : Bool → Str → Str}
    (step : ∀ text : Content, (multiple = false → text.strip.has flag = false) →
      Content.Omits allowed text (text.stripped flag (trim multiple text.value))) (nodes : List Node) :
    Omitted allowed nodes (omitNearest flag trim multiple nodes).1 := by
  unfold omitNearest
  split
  · rename_i text rest
    split
    · exact Omitted.refl _
    · rename_i open_
      refine .cons (.content (.single (step text ?_))) (Omitted.refl rest)
      rintro rfl
      simpa using open_
  · exact Omitted.refl _

theorem omitLeft_omits (may : allowed multiple) (nodes : List Node) :
    Omitted allowed nodes (omitLeft multiple nodes).1 :=
  omitNearest_omits (fun text fresh => .left text multiple may fresh) nodes

theorem omitRight_omits (may : allowed multiple) (nodes : List Node) :
    Omitted allowed nodes (omitRight multiple nodes).1 :=
  omitNearest_omits (fun text fresh => .right text multiple may fresh) nodes

theorem Omitted.reverse {after : List Node} (omitted : Omitted allowed nodes after) :
    Omitted allowed nodes.reverse after.reverse :=
  altersList_iff.mpr (List.forall₂_reverse_iff.mpr (altersList_iff.mp omitted))

/-- A program whose statements are altered -/
theorem ProgramTree.Omitted.withStatements {nodes' : List Node}
    (present : program.statements = some nodes) (omitted : Parser.Omitted allowed nodes nodes') :
    program.Omitted allowed (program.withStatements (some nodes')) := by
  obtain ⟨strip, loc, statements, blockParam1, blockParam2, chained⟩ := program
  cases present
  exact .mk (.some omitted)

theorem ProgramTree.omitFirst_omits (may : allowed multiple)
    (trimmed : program.omitFirst multiple = some after) : program.Omitted allowed after := by
  obtain ⟨nodes, present, rfl⟩ := Option.map_eq_some_iff.mp trimmed
  exact .withStatements present (omitRight_omits may nodes)

theorem ProgramTree.omitLast_omits (may : allowed multiple)
    (trimmed : program.omitLast multiple = some after) : program.Omitted allowed after := by
  obtain ⟨nodes, present, rfl⟩ := Option.map_eq_some_iff.mp trimmed
  refine .withStatements present ?_
  simpa using (omitLeft_omits may nodes.reverse).reverse

end Omissions

section Statements

variable {allowed : Bool → Prop} {nodes : List Node} {multiple : Bool} {node after : Node}

/-- A node that trims as a strip mark only where that is allowed. -/
def Node.Permits (allowed : Bool → Prop) (node : Node) : Prop :=
  node.strip.marked = true → allowed true

/-- An omission leaves the other flags of a content. -/
theorem stripped_has (text : Content) (value : Str) {flag other : StripFlags}
    (apart : StripFlags.has flag other = false) (kept : ~~~flag &&& other = other)
    (settled : StripFlags.has .set other = false) :
    (text.stripped flag value).strip.has other = text.strip.has other := by
  unfold Content.stripped
  rw [StripFlags.has_or, settled, Bool.or_false]
  split
  · exact StripFlags.has_and kept
  · rw [StripFlags.has_or, apart, Bool.or_false]

theorem stripped_marked (text : Content) (value : Str) :
    (text.stripped .rightStripped value).strip.marked = text.strip.marked := by
  unfold StripFlags.marked
  rw [stripped_has text value (by decide) (by decide) (by decide),
    stripped_has text value (by decide) (by decide) (by decide)]

theorem omitRight_permits (permits : ∀ node ∈ nodes, node.Permits allowed) :
    ∀ node ∈ (omitRight multiple nodes).1, node.Permits allowed := by
  unfold omitRight omitNearest
  split
  · rename_i text rest
    split
    · exact permits
    · obtain ⟨here, later⟩ := List.forall_mem_cons.mp permits
      exact List.forall_mem_cons.mpr
        ⟨fun marked => here ((stripped_marked text _).symm.trans marked), later⟩
  · exact permits

theorem Node.indented_alters (before : List Node) (node : Node) :
    node.Alters (Content.Omitted allowed) (node.indented before) := by
  unfold Node.indented
  split
  · split <;> exact .partialCall
  · exact .refl Content.Omitted.refl _

theorem trimOne_alters {trim : ProgramTree → Option ProgramTree}
    {first second first' second' : Option ProgramTree}
    (step : ∀ program after, trim program = some after → program.Omitted allowed after)
    (trimmed : trimOne trim first second = some (first', second')) :
    AltersOption (Content.Omitted allowed) first first' ∧
      AltersOption (Content.Omitted allowed) second second' := by
  unfold trimOne at trimmed
  split at trimmed
  · obtain ⟨after, done, same⟩ := Option.bind_eq_some_iff.mp trimmed
    cases same
    exact ⟨.some (step _ after done), altersOption_refl Content.Omitted.refl _⟩
  · obtain ⟨after, done, same⟩ := Option.bind_eq_some_iff.mp trimmed
    cases same
    exact ⟨.none, .some (step _ after done)⟩
  · cases trimmed
    exact ⟨.none, .none⟩

theorem Node.opened_alters (single : allowed false) (opened : node.opened = some after) :
    node.Alters (Content.Omitted allowed) after := by
  unfold Node.opened at opened
  split at opened
  · obtain ⟨programs, trimmed, same⟩ := Option.bind_eq_some_iff.mp opened
    cases same
    have ⟨inner, outer⟩ := trimOne_alters (fun _ _ => ProgramTree.omitFirst_omits single) trimmed
    exact .block inner outer
  · cases opened
    exact .refl Content.Omitted.refl _

theorem Node.closed_alters (single : allowed false) (closed : node.closed = some after) :
    node.Alters (Content.Omitted allowed) after := by
  unfold Node.closed at closed
  split at closed
  · obtain ⟨programs, trimmed, same⟩ := Option.bind_eq_some_iff.mp closed
    cases same
    have ⟨outer, inner⟩ := trimOne_alters (fun _ _ => ProgramTree.omitLast_omits single) trimmed
    exact .block inner outer
  · cases closed
    exact .refl Content.Omitted.refl _

/-- A place after omissions around and inside of its statement: what they all keep of the statements
behind it is kept. -/
structure Place.Omitted (allowed : Bool → Prop) (place after : Place) : Prop where
  before : Parser.Omitted allowed place.before after.before
  current : place.current.Alters (Content.Omitted allowed) after.current
  behind : Parser.Omitted allowed place.behind after.behind
  kept : ∀ P : List Node → Prop, (∀ multiple nodes, P nodes → P (Parser.omitRight multiple nodes).1) →
    P place.behind → P after.behind

namespace Place

variable {place middle last : Place}

theorem Omitted.refl (place : Place) : place.Omitted allowed place :=
  ⟨.refl _, .refl Content.Omitted.refl _, .refl _, fun _ _ => id⟩

theorem Omitted.trans (first : place.Omitted allowed middle) (second : middle.Omitted allowed last) :
    place.Omitted allowed last where
  before := first.before.trans Content.Omitted.trans second.before
  current := first.current.trans Content.Omitted.trans second.current
  behind := first.behind.trans Content.Omitted.trans second.behind
  kept P step := second.kept P step ∘ first.kept P step

theorem omitLeft_omits (may : allowed multiple) (place : Place) :
    place.Omitted allowed (place.omitLeft multiple) :=
  ⟨Parser.omitLeft_omits may _, .refl Content.Omitted.refl _, .refl _, fun _ _ => id⟩

theorem omitRight_omits (may : allowed multiple) (place : Place) :
    place.Omitted allowed (place.omitRight multiple) :=
  ⟨.refl _, .refl Content.Omitted.refl _, Parser.omitRight_omits may _, fun _ step => step multiple _⟩

theorem inlined_omits (single : allowed false) (place : Place) :
    place.Omitted allowed place.inlined := by
  have right : place.Omitted allowed (place.omitRight false) := omitRight_omits single place
  have left := Parser.omitLeft_omits single (place.omitRight false).before
  refine ⟨right.before.trans Content.Omitted.trans left, ?_, right.behind, right.kept⟩
  unfold inlined
  dsimp only
  split
  · exact right.current.trans Content.Omitted.trans (Node.indented_alters _ _)
  · exact right.current

theorem opened_omits (single : allowed false) (opened : place.opened = some last) :
    place.Omitted allowed last := by
  obtain ⟨current, inside, same⟩ := Option.bind_eq_some_iff.mp opened
  cases same
  have entered : place.Omitted allowed { place with current := current } :=
    ⟨.refl _, Node.opened_alters single inside, .refl _, fun _ _ => id⟩
  exact entered.trans (omitLeft_omits single _)

theorem closed_omits (single : allowed false) (closed : place.closed = some last) :
    place.Omitted allowed last := by
  obtain ⟨current, inside, same⟩ := Option.bind_eq_some_iff.mp closed
  cases same
  have right : place.Omitted allowed (place.omitRight false) := omitRight_omits single place
  exact ⟨right.before, right.current.trans Content.Omitted.trans (Node.closed_alters single inside),
    right.behind, right.kept⟩

/-- A step that is made only on a condition -/
theorem Omitted.ite {condition : Prop} [Decidable condition]
    (step : condition → place.Omitted allowed middle) :
    place.Omitted allowed (if condition then middle else place) := by
  split
  · rename_i holds
    exact step holds
  · exact .refl place

theorem Omitted.optional {condition : Bool} {step : Option Place}
    (inside : ∀ last, step = some last → place.Omitted allowed last)
    (done : (if condition then step else some place) = some last) : place.Omitted allowed last := by
  split at done
  · exact inside last done
  · cases done
    exact .refl place

theorem around_omits {strip : StripFlags} {isPrev isNext : Bool} (single : allowed false)
    (permits : strip.marked = true → allowed true)
    (done : place.around strip isPrev isNext = some last) : place.Omitted allowed last := by
  unfold around at done
  dsimp only at done
  have right : place.Omitted allowed (if strip.has .right then place.omitRight true else place) := by
    refine .ite fun present => omitRight_omits (permits ?_) place
    rw [StripFlags.marked, present, Bool.or_true]
  generalize (if strip.has .right then place.omitRight true else place) = first at *
  have left : first.Omitted allowed (if strip.has .left then first.omitLeft true else first) := by
    refine .ite fun present => omitLeft_omits (permits ?_) first
    rw [StripFlags.marked, present, Bool.true_or]
  generalize (if strip.has .left then first.omitLeft true else first) = second at *
  obtain ⟨third, opened, closed⟩ := Option.bind_eq_some_iff.mp done
  have alone := (Omitted.optional (fun _ => opened_omits single) opened).trans
    (Omitted.optional (fun _ => closed_omits single) closed)
  exact (right.trans left).trans (Omitted.trans (.ite fun _ => inlined_omits single second) alone)

theorem trimmed_omits {isRoot : Bool} (single : allowed false) (permits : place.current.Permits allowed)
    (done : place.trimmed isRoot = some last) : place.Omitted allowed last := by
  unfold Place.trimmed at done
  split at done
  · cases done
    exact .refl place
  · exact around_omits single permits done

end Place

theorem Omitted.append {front back front' back' : List Node} (first : Omitted allowed front front')
    (second : Omitted allowed back back') : Omitted allowed (front ++ back) (front' ++ back') :=
  altersList_iff.mpr (List.rel_append (altersList_iff.mp first) (altersList_iff.mp second))

/-- The loop over the statements keeps them but for omissions: one step after the other. -/
theorem trimStatements_omits {isRoot : Bool} {before rest done : List Node} {count : Nat}
    (single : allowed false) (permits : ∀ node ∈ rest, node.Permits allowed)
    (trimmed : trimStatements isRoot before count rest = some done) :
    Omitted allowed (before.reverse ++ rest) done := by
  induction count generalizing before rest with
  | zero =>
    cases trimmed
    exact .refl _
  | succ count ih =>
    cases rest with
    | nil =>
      cases trimmed
      rw [List.append_nil]
      exact .refl _
    | cons current behind =>
      obtain ⟨place, step, rested⟩ := Option.bind_eq_some_iff.mp trimmed
      obtain ⟨here, later⟩ := List.forall_mem_cons.mp permits
      have omitted := Place.trimmed_omits single here step
      have others := omitted.kept (fun nodes => ∀ node ∈ nodes, node.Permits allowed)
        (fun _ _ => omitRight_permits)
      have start : Omitted allowed (before.reverse ++ current :: behind)
          ((place.current :: place.before).reverse ++ place.behind) := by
        rw [List.reverse_cons, List.append_assoc]
        exact omitted.before.reverse.append (.cons omitted.current omitted.behind)
      exact start.trans Content.Omitted.trans (ih (others later) rested)

end Statements

section Blocks

variable {allowed : Bool → Prop} {multiple raw : Bool} {marks : BlockMarks}
  {program inverse program' inverse' after : ProgramTree}

theorem trimAt_omits {strip flag : StripFlags} {trim : ProgramTree → Option ProgramTree}
    (step : strip.has flag = true → trim program = some after → program.Omitted allowed after)
    (done : trimAt strip flag trim program = some after) : program.Omitted allowed after := by
  unfold trimAt at done
  split at done
  · rename_i present
    exact step present done
  · cases done
    exact .refl program

theorem withFirstProgram_alters {first first' : ProgramTree}
    (found : inverse.firstProgram = some first) (omitted : first.Omitted allowed first') :
    inverse.Omitted allowed (inverse.withFirstProgram first') := by
  unfold ProgramTree.firstProgram at found
  unfold ProgramTree.withFirstProgram
  split at found
  · rename_i present
    cases found
    exact .withStatements present (.cons
      (.block (.some omitted) (altersOption_refl Content.Omitted.refl _)) (Omitted.refl _))
  · rename_i present
    cases found
    exact .withStatements present (.cons
      (.rawBlock (.some omitted) (altersOption_refl Content.Omitted.refl _)) (Omitted.refl _))
  · cases found

theorem trimElse_omits (single : allowed false)
    (done : trimElse raw program inverse = some (program', inverse')) :
    program.Omitted allowed program' ∧ inverse.Omitted allowed inverse' := by
  unfold trimElse at done
  split at done
  · cases done
    exact ⟨.refl _, .refl _⟩
  · rename_i first found
    split at done
    · obtain ⟨last, ended, done⟩ := Option.bind_eq_some_iff.mp done
      obtain ⟨start, begun, done⟩ := Option.bind_eq_some_iff.mp done
      cases done
      refine ⟨ProgramTree.omitLast_omits single ended, ?_⟩
      have omitted := ProgramTree.omitFirst_omits single begun
      unfold ProgramTree.firstInverse at found
      split
      · rename_i chained
        rw [if_pos chained] at found
        exact withFirstProgram_alters found omitted
      · rename_i plain
        rw [if_neg plain] at found
        split at found
        · cases found
        · cases found
          exact omitted
    · cases done
      exact ⟨.refl _, .refl _⟩

/-- A strip mark on one of the tags -/
def BlockMarks.marked (marks : BlockMarks) : Bool :=
  marks.openStrip.marked || marks.inverseStrip.marked || marks.closeStrip.marked

section Marked

variable (permits : marks.marked = true → allowed true)
include permits

theorem BlockMarks.open_right : marks.openStrip.has .right = true → allowed true := by
  intro present
  refine permits ?_
  simp [BlockMarks.marked, StripFlags.marked, present]

theorem BlockMarks.close_left : marks.closeStrip.has .left = true → allowed true := by
  intro present
  refine permits ?_
  simp [BlockMarks.marked, StripFlags.marked, present]

theorem trimOnly_omits (done : trimOnly marks program = some after) :
    program.Omitted allowed after := by
  obtain ⟨middle, first, second⟩ := Option.bind_eq_some_iff.mp done
  have start : program.Omitted allowed middle :=
    trimAt_omits (fun present => ProgramTree.omitFirst_omits (BlockMarks.open_right permits present))
      first
  exact start.trans
    (trimAt_omits (fun present => ProgramTree.omitLast_omits (BlockMarks.close_left permits present))
      second)

theorem trimBoth_omits (single : allowed false)
    (done : trimBoth raw marks program inverse = some (program', inverse')) :
    program.Omitted allowed program' ∧ inverse.Omitted allowed inverse' := by
  have inverse_left : marks.inverseStrip.has .left = true → allowed true := by
    intro present
    refine permits ?_
    simp [BlockMarks.marked, StripFlags.marked, present]
  have inverse_right : marks.inverseStrip.has .right = true → allowed true := by
    intro present
    refine permits ?_
    simp [BlockMarks.marked, StripFlags.marked, present]
  obtain ⟨opened, first, done⟩ := Option.bind_eq_some_iff.mp done
  obtain ⟨left, second, done⟩ := Option.bind_eq_some_iff.mp done
  obtain ⟨right, third, done⟩ := Option.bind_eq_some_iff.mp done
  obtain ⟨closed, fourth, done⟩ := Option.bind_eq_some_iff.mp done
  have ⟨inner, outer⟩ := trimElse_omits single done
  have front : program.Omitted allowed opened :=
    trimAt_omits (fun present => ProgramTree.omitFirst_omits (BlockMarks.open_right permits present))
      first
  have back : inverse.Omitted allowed right :=
    trimAt_omits (fun present => ProgramTree.omitFirst_omits (inverse_right present)) third
  constructor
  · exact (front.trans
      (trimAt_omits (fun present => ProgramTree.omitLast_omits (inverse_left present)) second)).trans
      inner
  · exact (back.trans (trimAt_omits (fun present =>
      ProgramTree.omitLast_omits (BlockMarks.close_left permits present)) fourth)).trans outer

theorem trimBlock_alters (single : allowed false) {first second first' second' : Option ProgramTree}
    (done : trimBlock raw marks first second = some (first', second')) :
    AltersOption (Content.Omitted allowed) first first' ∧
      AltersOption (Content.Omitted allowed) second second' := by
  unfold trimBlock at done
  split at done
  · obtain ⟨programs, trimmed, same⟩ := Option.bind_eq_some_iff.mp done
    cases same
    have ⟨inner, outer⟩ := trimBoth_omits permits single trimmed
    exact ⟨.some inner, .some outer⟩
  · obtain ⟨program, trimmed, same⟩ := Option.bind_eq_some_iff.mp done
    cases same
    exact ⟨.some (trimOnly_omits permits trimmed), .none⟩
  · obtain ⟨inverse, trimmed, same⟩ := Option.bind_eq_some_iff.mp done
    cases same
    exact ⟨.none, .some (trimOnly_omits permits trimmed)⟩
  · cases done
    exact ⟨.none, .none⟩

/-- The flags of a block have the marks of its outer sides. -/
theorem blockStrip_marked (program inverse : Option ProgramTree)
    (marked : (blockStrip raw marks program inverse).marked = true) : allowed true := by
  refine permits ?_
  have flag : ∀ (condition : Bool) (flag : StripFlags), flag.marked = false →
      (if condition then flag else 0 : StripFlags).marked = false := by
    rintro (_ | _) flag apart
    · rw [if_neg Bool.false_ne_true]
      decide
    · exact apart
  have sides : (blockStrip raw marks program inverse).marked =
      ((marks.openStrip &&& .left) ||| (marks.closeStrip &&& .right)).marked := by
    unfold blockStrip
    dsimp only
    rw [StripFlags.marked_or (by decide), StripFlags.marked_or (flag _ _ (by decide)),
      StripFlags.marked_or (flag _ _ (by decide))]
  have left : (StripFlags.has (marks.openStrip &&& .left) .left) = marks.openStrip.has .left :=
    StripFlags.has_and (by decide)
  have right : (StripFlags.has (marks.closeStrip &&& .right) .right) = marks.closeStrip.has .right :=
    StripFlags.has_and (by decide)
  have noRight : (StripFlags.has (marks.openStrip &&& .left) .right) = false :=
    StripFlags.not_has_and (by decide)
  have noLeft : (StripFlags.has (marks.closeStrip &&& .right) .left) = false :=
    StripFlags.not_has_and (by decide)
  rw [sides, StripFlags.marked, StripFlags.has_or, StripFlags.has_or, left, right, noLeft, noRight,
    Bool.or_false, Bool.false_or] at marked
  unfold BlockMarks.marked StripFlags.marked
  grind

end Marked

end Blocks

section Visits

variable {allowed : Bool → Prop}

mutual

/-- A strip mark on a tag of the node or inside of it: the pass does not visit partial blocks. -/
def Node.marked : Node → Bool
  | .block _ _ marks _ program inverse | .rawBlock _ _ marks program inverse =>
    marks.marked || optionMarked program || optionMarked inverse
  | .mustache strip .. | .partialCall strip .. | .partialBlock strip .. | .comment strip .. =>
    strip.marked
  | .content text => text.strip.marked

def listMarked : List Node → Bool
  | [] => false
  | node :: rest => node.marked || listMarked rest

def statementsMarked : Option (List Node) → Bool
  | none => false
  | some nodes => listMarked nodes

def ProgramTree.marked : ProgramTree → Bool
  | .mk _ _ statements _ _ _ => statementsMarked statements

def optionMarked : Option ProgramTree → Bool
  | none => false
  | some program => program.marked

end

theorem acceptGeneric_marked (strip : StripFlags) : (acceptGeneric strip).marked = strip.marked :=
  StripFlags.marked_or (by decide)

theorem acceptMustache_marked (strip : StripFlags) (path : HelperName) :
    (acceptMustache strip path).marked = strip.marked := by
  unfold acceptMustache
  split
  · exact StripFlags.marked_or (by decide)
  · rfl

mutual

/-- The pass alters a node by omissions: those of strip marks only if there are any. -/
theorem Node.accept_alters (single : allowed false) (node : Node)
    (permits : node.marked = true → allowed true) {after : Node} (done : node.accept = some after) :
    node.Alters (Content.Omitted allowed) after ∧ after.Permits allowed := by
  cases node with
  | block strip call marks isDecorator program inverse =>
    simp only [Node.marked, Bool.or_eq_true] at permits
    rw [Node.accept] at done
    obtain ⟨program', visited, done⟩ := Option.bind_eq_some_iff.mp done
    obtain ⟨inverse', visited', done⟩ := Option.bind_eq_some_iff.mp done
    obtain ⟨programs, trimmed, done⟩ := Option.bind_eq_some_iff.mp done
    cases done
    have inner := acceptOption_alters single program (fun marked => permits (.inl (.inr marked))) visited
    have outer := acceptOption_alters single inverse (fun marked => permits (.inr marked)) visited'
    have own : marks.marked = true → allowed true := fun marked => permits (.inl (.inl marked))
    have ⟨inner', outer'⟩ := trimBlock_alters own single trimmed
    exact ⟨.block (inner.trans Content.Omitted.trans inner') (outer.trans Content.Omitted.trans outer'),
      blockStrip_marked own program' inverse'⟩
  | rawBlock strip call marks program inverse =>
    simp only [Node.marked, Bool.or_eq_true] at permits
    rw [Node.accept] at done
    obtain ⟨program', visited, done⟩ := Option.bind_eq_some_iff.mp done
    obtain ⟨inverse', visited', done⟩ := Option.bind_eq_some_iff.mp done
    obtain ⟨programs, trimmed, done⟩ := Option.bind_eq_some_iff.mp done
    cases done
    have inner := acceptOption_alters single program (fun marked => permits (.inl (.inr marked))) visited
    have outer := acceptOption_alters single inverse (fun marked => permits (.inr marked)) visited'
    have own : marks.marked = true → allowed true := fun marked => permits (.inl (.inl marked))
    have ⟨inner', outer'⟩ := trimBlock_alters own single trimmed
    exact ⟨.rawBlock (inner.trans Content.Omitted.trans inner')
      (outer.trans Content.Omitted.trans outer'), blockStrip_marked own program' inverse'⟩
  | mustache strip call =>
    rw [Node.accept] at done
    cases done
    exact ⟨.mustache, fun marked => permits ((acceptMustache_marked strip call.path).symm.trans marked)⟩
  | partialCall strip =>
    rw [Node.accept] at done
    cases done
    exact ⟨.partialCall, fun marked => permits ((acceptGeneric_marked strip).symm.trans marked)⟩
  | partialBlock =>
    rw [Node.accept] at done
    cases done
    exact ⟨.partialBlock, permits⟩
  | content text =>
    rw [Node.accept] at done
    cases done
    exact ⟨.content (Content.Omitted.refl text), permits⟩
  | comment strip =>
    rw [Node.accept] at done
    cases done
    exact ⟨.comment, fun marked => permits ((acceptGeneric_marked strip).symm.trans marked)⟩
termination_by structural node

theorem acceptList_alters (single : allowed false) (nodes : List Node)
    (permits : listMarked nodes = true → allowed true) {after : List Node}
    (done : acceptList nodes = some after) :
    Omitted allowed nodes after ∧ ∀ node ∈ after, node.Permits allowed := by
  cases nodes with
  | nil =>
    cases done
    exact ⟨.nil, by simp⟩
  | cons node rest =>
    simp only [listMarked, Bool.or_eq_true] at permits
    rw [acceptList] at done
    obtain ⟨node', visited, done⟩ := Option.bind_eq_some_iff.mp done
    obtain ⟨rest', rested, done⟩ := Option.bind_eq_some_iff.mp done
    cases done
    have ⟨here, own⟩ := Node.accept_alters single node (fun marked => permits (.inl marked)) visited
    have ⟨later, others⟩ := acceptList_alters single rest (fun marked => permits (.inr marked)) rested
    exact ⟨.cons here later, List.forall_mem_cons.mpr ⟨own, others⟩⟩
termination_by structural nodes

theorem acceptStatements_alters (single : allowed false) (isRoot : Bool)
    (statements : Option (List Node)) (permits : statementsMarked statements = true → allowed true)
    {after : Option (List Node)} (done : acceptStatements isRoot statements = some after) :
    AltersStatements (Content.Omitted allowed) statements after := by
  cases statements with
  | none =>
    cases done
    exact .none
  | some nodes =>
    rw [acceptStatements] at done
    obtain ⟨visited, accepted, done⟩ := Option.bind_eq_some_iff.mp done
    obtain ⟨last, trimmed, done⟩ := Option.bind_eq_some_iff.mp done
    cases done
    have ⟨altered, own⟩ := acceptList_alters single nodes permits accepted
    exact .some (altered.trans Content.Omitted.trans (trimStatements_omits single own trimmed))
termination_by structural statements

theorem ProgramTree.accept_alters (single : allowed false) (isRoot : Bool) (program : ProgramTree)
    (permits : program.marked = true → allowed true) {after : ProgramTree}
    (done : program.accept isRoot = some after) : program.Omitted allowed after := by
  obtain ⟨strip, loc, statements, blockParam1, blockParam2, chained⟩ := program
  rw [ProgramTree.accept] at done
  obtain ⟨statements', visited, done⟩ := Option.bind_eq_some_iff.mp done
  cases done
  exact .mk (acceptStatements_alters single isRoot statements permits visited)
termination_by structural program

theorem acceptOption_alters (single : allowed false) (program : Option ProgramTree)
    (permits : optionMarked program = true → allowed true) {after : Option ProgramTree}
    (done : acceptOption program = some after) : AltersOption (Content.Omitted allowed) program after := by
  cases program with
  | none =>
    cases done
    exact .none
  | some program =>
    rw [acceptOption] at done
    obtain ⟨program', visited, done⟩ := Option.bind_eq_some_iff.mp done
    cases done
    exact .some (ProgramTree.accept_alters single false program permits visited)
termination_by structural program

end

end Visits

section Contents

variable {allowed : Bool → Prop} {text after : Content} {multiple : Bool}

theorem trimLeft_split (multiple : Bool) (value : Str) :
    ∃ back, value = trimLeft multiple value ++ back ∧ ∀ char ∈ back, char ∈ blanks multiple := by
  refine ⟨value.rtakeWhile (blanks multiple).contains, ?_, ?_⟩
  · exact (List.rdropWhile_append_rtakeWhile).symm
  · intro char member
    simpa using List.mem_rtakeWhile_imp member

/-- The start of a line: blanks, and the end of a line if it comes then -/
def LineStart (front : Str) : Prop := ∃ blank carriage newline, front = blank ++ carriage ++ newline ∧
  (∀ char ∈ blank, char ∈ blanks false) ∧ (carriage = [] ∨ carriage = [13]) ∧
    (newline = [] ∨ newline = [10])

theorem dropFirst_split (char : UInt8) (value : Str) :
    ∃ front, value = front ++ dropFirst char value ∧ (front = [] ∨ front = [char]) := by
  unfold dropFirst
  split
  · rename_i first
    cases value with
    | nil => cases first
    | cons head rest =>
      cases first
      exact ⟨[char], rfl, .inr rfl⟩
  · exact ⟨[], rfl, .inl rfl⟩

theorem trimRight_line (value : Str) :
    ∃ front, value = front ++ trimRight false value ∧ LineStart front := by
  obtain ⟨carriage, first, isCarriage⟩ :=
    dropFirst_split 13 (value.dropWhile (Object.isTrimmed (blanks false)))
  obtain ⟨newline, second, isNewline⟩ :=
    dropFirst_split 10 (dropFirst 13 (value.dropWhile (Object.isTrimmed (blanks false))))
  have whole : value = value.takeWhile (Object.isTrimmed (blanks false)) ++ carriage ++ newline ++
      trimRight false value := by
    change value = _ ++ dropFirst 10 _
    rw [List.append_assoc, ← second, List.append_assoc, ← first, List.takeWhile_append_dropWhile]
  refine ⟨_, whole, _, carriage, newline, rfl, ?_, isCarriage, isNewline⟩
  intro char member
  have trimmed := List.mem_takeWhile_imp member
  unfold Object.isTrimmed at trimmed
  simpa using (Bool.and_eq_true_iff.mp trimmed).2

theorem LineStart.blank {front : Str} (start : LineStart front) :
    ∀ char ∈ front, char ∈ blanks true := by
  obtain ⟨blank, carriage, newline, rfl, blankOnly, isCarriage, isNewline⟩ := start
  intro char member
  rcases List.mem_append.mp member with member | member
  · rcases List.mem_append.mp member with member | member
    · have := blankOnly char member
      simp [blanks] at this ⊢
      tauto
    · rcases isCarriage with rfl | rfl <;> simp_all [blanks]
  · rcases isNewline with rfl | rfl <;> simp_all [blanks]

theorem trimRight_split (multiple : Bool) (value : Str) :
    ∃ front, value = front ++ trimRight multiple value ∧ ∀ char ∈ front, char ∈ blanks true := by
  cases multiple with
  | true =>
    refine ⟨value.takeWhile (Object.isTrimmed (blanks true)), ?_, ?_⟩
    · exact List.takeWhile_append_dropWhile.symm
    · intro char member
      have trimmed := List.mem_takeWhile_imp member
      unfold Object.isTrimmed at trimmed
      simpa using (Bool.and_eq_true_iff.mp trimmed).2
  | false =>
    obtain ⟨front, whole, start⟩ := trimRight_line value
    exact ⟨front, whole, start.blank⟩

/-- A content that has lost blanks at its ends and kept the rest -/
def Content.Trimmed (text after : Content) : Prop :=
  after.original = text.original ∧ after.loc = text.loc ∧
    Trims.Trimmed (· ∈ blanks true) text.value after.value

theorem Content.Omits.trims (omits : Content.Omits allowed text after) : text.Trimmed after := by
  cases omits with
  | left multiple =>
    obtain ⟨back, whole, blank⟩ := trimLeft_split multiple text.value
    refine ⟨rfl, rfl, [], back, whole, by simp, fun char member => ?_⟩
    have := blank char member
    cases multiple with
    | true => exact this
    | false =>
      simp [blanks] at this ⊢
      tauto
  | right multiple =>
    obtain ⟨front, whole, blank⟩ := trimRight_split multiple text.value
    refine ⟨rfl, rfl, front, [], ?_, blank, by simp⟩
    rw [List.append_nil]
    exact whole

theorem Content.Omitted.trims (omitted : Content.Omitted allowed text after) :
    text.Trimmed after := by
  induction omitted with
  | refl => exact ⟨rfl, rfl, .refl _⟩
  | tail _ step ih =>
    have ⟨original, loc, trimmed⟩ := step.trims
    exact ⟨original.trans ih.1, loc.trans ih.2.1, ih.2.2.trans trimmed⟩

/-- A content as the parser makes it -/
structure Content.Fresh (text : Content) : Prop where
  value : text.value = text.original
  left : text.strip.has .leftStripped = false
  right : text.strip.has .rightStripped = false

/-- A content that has lost the start of a line at its front and blanks of a line at its back -/
def Content.KeepsLines (text after : Content) : Prop := ∃ front back,
  text.original = front ++ after.value ++ back ∧ LineStart front ∧ ∀ char ∈ back, char ∈ blanks false

/-- A content is marked as trimmed where it has become shorter. -/
theorem stripped_short (text : Content) (value : Str)
    (flag : (text.stripped .rightStripped value).strip.has .rightStripped = false) :
    text.value.length = value.length := by
  by_contra shorter
  unfold Content.stripped at flag
  rw [if_neg shorter, StripFlags.has_or, StripFlags.has_or] at flag
  simp [show StripFlags.has .rightStripped .rightStripped = true by decide] at flag

/-- What omissions without strip marks have left: the flag tells whether the front was trimmed. -/
theorem Content.Omitted.keeps (fresh : text.Fresh) (omitted : Content.Omitted (false = ·) text after) :
    ∃ front back, text.original = front ++ after.value ++ back ∧ LineStart front ∧
      (∀ char ∈ back, char ∈ blanks false) ∧
      (after.strip.has .rightStripped = false → front = []) := by
  have nothing : LineStart [] := ⟨[], [], [], rfl, by simp, .inl rfl, .inl rfl⟩
  induction omitted with
  | refl => exact ⟨[], [], by simp [fresh.value], nothing, by simp, fun _ => rfl⟩
  | @tail middle _ _ step ih =>
    obtain ⟨front, back, whole, start, blank, untouched⟩ := ih
    cases step with
    | left multiple may =>
      cases may
      obtain ⟨more, split, moreBlank⟩ := trimLeft_split false middle.value
      refine ⟨front, more ++ back, ?_, start, ?_, ?_⟩
      · rw [whole]
        conv_lhs => rw [split]
        simp only [List.append_assoc]
        rfl
      · intro char member
        exact (List.mem_append.mp member).elim (moreBlank char) (blank char)
      · intro flag
        exact untouched ((stripped_has middle _ (by decide) (by decide) (by decide)).symm.trans flag)
    | right multiple may once =>
      cases may
      cases untouched (once rfl)
      obtain ⟨more, split, moreStart⟩ := trimRight_line middle.value
      refine ⟨more, back, ?_, moreStart, blank, ?_⟩
      · rw [whole]
        conv_lhs => rw [split]
        rfl
      · intro flag
        have same : middle.value.length = (trimRight false middle.value).length :=
          stripped_short middle (trimRight false middle.value) flag
        have lengths := congrArg List.length split
        rw [List.length_append] at lengths
        exact List.length_eq_zero_iff.mp (by omega)

end Contents

section Results

variable {program after : ProgramTree}

theorem ProgramTree.accept_trims (done : program.accept true = some after) :
    program.Alters Content.Trimmed after := by
  have omitted : program.Omitted (fun _ => True) after :=
    program.accept_alters trivial true (fun _ => trivial) done
  exact omitted.mono fun _ _ omitted => omitted.trims

/-- The whitespace pass changes nothing of a tree but strip flags, the indent of partials and the
values of contents; these lose nothing but blanks at their ends, whatever nests in what. In a tree
without strip marks no content loses more than the start of one line at its front and blanks of a
line at its back. -/
theorem whitespace_trims (done : program.accept true = some after) :
    program.Alters (fun text trimmed => text.Trimmed trimmed ∧
      (program.marked = false → text.Fresh → text.KeepsLines trimmed)) after := by
  cases marked : program.marked with
  | true => exact (program.accept_trims done).mono fun _ _ trims => ⟨trims, by simp⟩
  | false =>
    have omitted : program.Omitted (false = ·) after :=
      program.accept_alters rfl true (by simp [marked]) done
    refine omitted.mono fun text trimmed omitted => ⟨omitted.trims, fun _ fresh => ?_⟩
    obtain ⟨front, back, whole, start, blank, -⟩ := omitted.keeps fresh
    exact ⟨front, back, whole, start, blank⟩

/-- A comment on a line of its own and the next line -/
def commentLine : ProgramTree :=
  .mk 0 .zero (some [.comment 0 .zero [] false, .content ⟨0, .zero, bytes "\n x", bytes "\n x"⟩])
    none none false

theorem whitespace_trims_comment : ∃ after, commentLine.accept true = some after ∧
    commentLine.Alters (fun text trimmed => text.Trimmed trimmed ∧
      (commentLine.marked = false → text.Fresh → text.KeepsLines trimmed)) after := by
  obtain ⟨after, done⟩ : ∃ after, commentLine.accept true = some after := ⟨_, rfl⟩
  exact ⟨after, done, whitespace_trims done⟩

end Results

end HandlebarsC.Parser
