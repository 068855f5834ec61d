import HandlebarsC.Parser.Nodes
import Mathlib.Data.List.Forall2

/-!
Trees that differ in their contents, strip flags and indents only: a relation of contents goes
through all of the tree, as far as the whitespace pass visits it.
-/

namespace HandlebarsC.Parser

section Alters

variable (R : Content → Content → Prop)

mutual

/-- The same node with related contents: strip flags and the indent of partials are free. -/
inductive Node.Alters : Node → Node → Prop
  | block (inner : AltersOption program program') (outer : AltersOption inverse inverse') :
    Node.Alters (.block strip call marks isDecorator program inverse)
      (.block strip' call marks isDecorator program' inverse')
  | rawBlock (inner : AltersOption program program') (outer : AltersOption inverse inverse') :
    Node.Alters (.rawBlock strip call marks program inverse)
      (.rawBlock strip' call marks program' inverse')
  | mustache : Node.Alters (.mustache strip call unescaped isDecorator)
      (.mustache strip' call unescaped isDecorator)
  | partialCall : Node.Alters (.partialCall strip loc name params pairs indent)
      (.partialCall strip' loc name params pairs indent')
  | partialBlock : Node.Alters (.partialBlock strip loc name params pairs marks program)
      (.partialBlock strip loc name params pairs marks program)
  | content (related : R text text') : Node.Alters (.content text) (.content text')
  | comment : Node.Alters (.comment strip loc value isLong) (.comment strip' loc value isLong)

inductive AltersList : List Node → List Node → Prop
  | nil : AltersList [] []
  | cons (here : Node.Alters node node') (later : AltersList rest rest') :
    AltersList (node :: rest) (node' :: rest')

inductive AltersStatements : Option (List Node) → Option (List Node) → Prop
  | none : AltersStatements none none
  | some (nodes : AltersList before after) : AltersStatements (some before) (some after)

inductive ProgramTree.Alters : ProgramTree → ProgramTree → Prop
  | mk (inside : AltersStatements statements statements') :
    ProgramTree.Alters (.mk strip loc statements blockParam1 blockParam2 chained)
      (.mk strip loc statements' blockParam1 blockParam2 chained)

inductive AltersOption : Option ProgramTree → Option ProgramTree → Prop
  | none : AltersOption none none
  | some (program : ProgramTree.Alters before after) : AltersOption (some before) (some after)

end

variable {R} {nodes nodes' : List Node}

theorem altersList_iff : AltersList R nodes nodes' ↔ List.Forall₂ (Node.Alters R) nodes nodes' := by
  constructor
  · intro alters
    induction nodes generalizing nodes' with
    | nil =>
      cases alters
      exact .nil
    | cons node rest ih =>
      cases alters with
      | cons here later => exact .cons here (ih later)
  · intro alters
    induction alters with
    | nil => exact .nil
    | cons here _ ih => exact .cons here ih

section Order

mutual

theorem Node.Alters.refl (same : ∀ text, R text text) (node : Node) : node.Alters R node := by
  cases node with
  | block strip call marks isDecorator program inverse =>
    exact .block (altersOption_refl same program) (altersOption_refl same inverse)
  | rawBlock strip call marks program inverse =>
    exact .rawBlock (altersOption_refl same program) (altersOption_refl same inverse)
  | mustache => exact .mustache
  | partialCall => exact .partialCall
  | partialBlock => exact .partialBlock
  | content text => exact .content (same text)
  | comment => exact .comment

theorem altersList_refl (same : ∀ text, R text text) (nodes : List Node) :
    AltersList R nodes nodes := by
  cases nodes with
  | nil => exact .nil
  | cons node rest => exact .cons (Node.Alters.refl same node) (altersList_refl same rest)

theorem altersStatements_refl (same : ∀ text, R text text) (statements : Option (List Node)) :
    AltersStatements R statements statements := by
  cases statements with
  | none => exact .none
  | some nodes => exact .some (altersList_refl same nodes)

theorem ProgramTree.Alters.refl (same : ∀ text, R text text) (program : ProgramTree) :
    program.Alters R program := by
  obtain ⟨strip, loc, statements, blockParam1, blockParam2, chained⟩ := program
  exact .mk (altersStatements_refl same statements)

theorem altersOption_refl (same : ∀ text, R text text) (program : Option ProgramTree) :
    AltersOption R program program := by
  cases program with
  | none => exact .none
  | some program => exact .some (ProgramTree.Alters.refl same program)

end

mutual

theorem Node.Alters.trans {node middle after : Node}
    (next : ∀ {first second third}, R first second → R second third → R first third)
    (first : node.Alters R middle) (second : middle.Alters R after) : node.Alters R after := by
  cases first with
  | block inner outer =>
    cases second with
    | block inner' outer' => exact .block (inner.trans next inner') (outer.trans next outer')
  | rawBlock inner outer =>
    cases second with
    | rawBlock inner' outer' => exact .rawBlock (inner.trans next inner') (outer.trans next outer')
  | mustache =>
    cases second
    exact .mustache
  | partialCall =>
    cases second
    exact .partialCall
  | partialBlock => exact second
  | content related =>
    cases second with
    | content related' => exact .content (next related related')
  | comment =>
    cases second
    exact .comment

theorem AltersList.trans {nodes middle after : List Node}
    (next : ∀ {first second third}, R first second → R second third → R first third)
    (first : AltersList R nodes middle) (second : AltersList R middle after) :
    AltersList R nodes after := by
  cases first with
  | nil => exact second
  | cons here later =>
    cases second with
    | cons here' later' => exact .cons (here.trans next here') (later.trans next later')

theorem AltersStatements.trans {statements middle after : Option (List Node)}
    (next : ∀ {first second third}, R first second → R second third → R first third)
    (first : AltersStatements R statements middle) (second : AltersStatements R middle after) :
    AltersStatements R statements after := by
  cases first with
  | none => exact second
  | some nodes =>
    cases second with
    | some nodes' => exact .some (nodes.trans next nodes')

theorem ProgramTree.Alters.trans {program middle after : ProgramTree}
    (next : ∀ {first second third}, R first second → R second third → R first third)
    (first : program.Alters R middle) (second : middle.Alters R after) : program.Alters R after := by
  cases first with
  | mk inside =>
    cases second with
    | mk inside' => exact .mk (inside.trans next inside')

theorem AltersOption.trans {program middle after : Option ProgramTree}
    (next : ∀ {first second third}, R first second → R second third → R first third)
    (first : AltersOption R program middle) (second : AltersOption R middle after) :
    AltersOption R program after := by
  cases first with
  | none => exact second
  | some program =>
    cases second with
    | some program' => exact .some (program.trans next program')

end

end Order

section Weaker

variable {S : Content → Content → Prop}

mutual

theorem Node.Alters.mono {node after : Node} (less : ∀ text after, R text after → S text after)
    (alters : node.Alters R after) : node.Alters S after := by
  cases alters with
  | block inner outer => exact .block (inner.mono less) (outer.mono less)
  | rawBlock inner outer => exact .rawBlock (inner.mono less) (outer.mono less)
  | mustache => exact .mustache
  | partialCall => exact .partialCall
  | partialBlock => exact .partialBlock
  | content related => exact .content (less _ _ related)
  | comment => exact .comment

theorem AltersList.mono {nodes after : List Node} (less : ∀ text after, R text after → S text after)
    (alters : AltersList R nodes after) : AltersList S nodes after := by
  cases alters with
  | nil => exact .nil
  | cons here later => exact .cons (here.mono less) (later.mono less)

theorem AltersStatements.mono {statements after : Option (List Node)}
    (less : ∀ text after, R text after → S text after)
    (alters : AltersStatements R statements after) : AltersStatements S statements after := by
  cases alters with
  | none => exact .none
  | some nodes => exact .some (nodes.mono less)

theorem ProgramTree.Alters.mono {program after : ProgramTree}
    (less : ∀ text after, R text after → S text after)
    (alters : program.Alters R after) : program.Alters S after := by
  cases alters with
  | mk inside => exact .mk (inside.mono less)

theorem AltersOption.mono {program after : Option ProgramTree}
    (less : ∀ text after, R text after → S text after)
    (alters : AltersOption R program after) : AltersOption S program after := by
  cases alters with
  | none => exact .none
  | some program => exact .some (program.mono less)

end

end Weaker

end Alters

end HandlebarsC.Parser
