import Mathlib.Data.List.Find
import HandlebarsC.Core.Value
import HandlebarsC.Foundation.Descent
import HandlebarsC.Map.Filled

/-!
`handlebars_yaml.c`: a loaded YAML document, whose nodes refer to each other by index, becomes a
value by a recursion over the indices.
-/

namespace HandlebarsC.Yaml

open Relation Descent

/-- `yaml_node_t`, of the types that a loaded document has. -/
inductive Node where
  | scalar (value : Str)
  | sequence (items : List Nat)
  | mapping (pairs : List (Nat × Nat))
  deriving DecidableEq, Repr

/-- The nodes that a node refers to. -/
def Node.references : Node → List Nat
  | scalar _ => []
  | sequence items => items
  | mapping pairs => pairs.flatMap fun pair => [pair.1, pair.2]

/-- `yaml_document_t`, with the nodes that its indices refer to. -/
structure Document where
  nodes : List Node
  inside : ∀ node ∈ nodes, ∀ index ∈ node.references, 0 < index ∧ index ≤ nodes.length

/-- `yaml_document_get_node`, which counts from one. -/
def Document.getNode (document : Document) (index : Nat) : Option Node :=
  if 0 < index then document.nodes[index - 1]? else none

/-- `yaml_document_get_root_node` -/
def Document.getRootNode (document : Document) : Option Node := document.nodes.head?

/-- `strtol` in base ten, and what is left behind the number. -/
def strtol (text : Str) : Int × Str :=
  let (sign, rest) : Int × Str :=
    match text.dropWhile isSpace with
    | 45 :: rest => (-1, rest)
    | 43 :: rest => (1, rest)
    | rest => (1, rest)
  match rest.takeWhile isDigit with
  | [] => (0, text)
  | digits => (clampLong (sign * digitsValue digits), rest.drop digits.length)

/-- `strtod`, and what is left behind the number. -/
abbrev Strtod := Str → Double × Str

variable {μ : Type}

/-- The value of a scalar. The C library reads it up to the first zero. -/
def scalarValue (strtod : Strtod) (scalar : Str) : Value μ :=
  let string := cstring scalar
  if string = bytes "true" then .boolean true
  else if string = bytes "false" then .boolean false
  else if (strtol string).2.isEmpty then .integer (strtol string).1
  else if (strtod string).2.isEmpty then .float (strtod string).1
  else .string scalar false

section Recursion

/-! The loops over the pairs of a mapping and the items of a sequence, with the function for
the nodes that they lead to. -/

variable (document : Document) (init : Node → MapResult (Value μ))

def updatePairs (hash : StringHash) (map : Map (Value μ)) :
    List (Nat × Nat) → MapResult (Map (Value μ))
  | [] => .ok map
  | (key, value) :: pairs =>
    match document.getNode key, document.getNode value with
    | some (.scalar keyScalar), some valueNode => do
      let tmp ← init valueNode
      let map ← map.update hash keyScalar tmp
      updatePairs hash map pairs
    | _, _ => .error .crashed

def pushItems : List Nat → MapResult (List (Value μ))
  | [] => .ok []
  | item :: items =>
    match document.getNode item with
    | some valueNode => do
      let tmp ← init valueNode
      let stack ← pushItems items
      .ok (tmp :: stack)
    | none => .error .crashed

end Recursion

/-- `handlebars_value_init_yaml_node`, but for the addresses of arrays and maps. It is followed
so many calls deep. -/
def initNode (hash : StringHash) (strtod : Strtod) (document : Document) :
    Nat → Node → MapResult (Value μ)
  | 0, _ => .error .exhausted
  | depth + 1, node =>
    match node with
    | .mapping pairs => do
      let map ← Map.ctor pairs.length
      let map ← updatePairs document (initNode hash strtod document depth) hash map pairs
      .ok (.map 0 map.pairs)
    | .sequence items => do
      let stack ← pushItems document (initNode hash strtod document depth) items
      .ok (.array 0 stack)
    | .scalar scalar => .ok (scalarValue strtod scalar)

/-- `handlebars_value_init_yaml_string` of what the parser has loaded: a document, or one without
nodes and a problem. -/
def initString (hash : StringHash) (strtod : Strtod) (parserError : Nat) (problem : Str)
    (document : Document) (depth : Nat) : MapResult (Value μ) :=
  match document.getRootNode with
  | some node => initNode hash strtod document depth node
  | none =>
    .error (.threw ⟨.error, bytes "YAML Parse Error: [" ++ decimal parserError ++ bytes "] " ++
      problem, .zero⟩)

/-- Of the pairs with a key the last has won, and the keys stand in the order in which they came.
Where maps tell the keys apart, it is the last pair with the very key. -/
structure LastWins {α : Type} (hash : StringHash) (entries map : StrMap α) : Prop where
  find : ∀ key, map.find hash key = StrMap.find hash entries.reverse key
  apart : map.Apart hash
  order : (map.map Prod.fst).Sublist (entries.map Prod.fst)
  exact : (∀ left ∈ entries, ∀ right ∈ entries, stringEq hash left.1 right.1 = true →
      left.1 = right.1) →
    ∀ key value, (key, value) ∈ map ↔
      entries.reverse.find? (fun entry => entry.1 == key) = some (key, value)

/-- The value that a node stands for: what its references lead to is put in their place. -/
inductive Unfolds (hash : StringHash) (strtod : Strtod) (document : Document) :
    Nat → Value μ → Prop where
  | scalar (index : Nat) (scalar : Str) (here : document.getNode index = some (.scalar scalar)) :
    Unfolds hash strtod document index (scalarValue strtod scalar)
  | sequence (index : Nat) (items : List Nat) (values : List (Value μ))
    (here : document.getNode index = some (.sequence items))
    (unfold : List.Forall₂ (Unfolds hash strtod document) items values) :
    Unfolds hash strtod document index (.array 0 values)
  | mapping (index : Nat) (pairs : List (Nat × Nat)) (entries map : List (Str × Value μ))
    (here : document.getNode index = some (.mapping pairs))
    (keys : List.Forall₂ (fun pair entry => document.getNode pair.1 = some (.scalar entry.1))
      pairs entries)
    (unfold : List.Forall₂ (Unfolds hash strtod document) (pairs.map Prod.snd)
      (entries.map Prod.snd))
    (wins : LastWins hash entries map) : Unfolds hash strtod document index (.map 0 map)

/-- A node refers to another. -/
def Refers (document : Document) (index other : Nat) : Prop :=
  ∃ node, document.getNode index = some node ∧ other ∈ node.references

/-- The nodes for which a node calls the function again. -/
def Node.descents : Node → List Nat
  | scalar _ => []
  | sequence items => items
  | mapping pairs => pairs.map Prod.snd

def Descends (document : Document) (index other : Nat) : Prop :=
  ∃ node, document.getNode index = some node ∧ other ∈ node.descents

/-- What is promised of a document: deep enough, there is one result, which is a value or an
error, and the value of a document without cycles is the one that its root stands for. -/
structure Loads (μ : Type) (hash : StringHash) (strtod : Strtod) (parserError : Nat)
    (problem : Str) (document : Document) : Prop where
  ends : ∃ enough, ∃ result : MapResult (Value μ), (∀ depth, enough ≤ depth →
      initString hash strtod parserError problem document depth = result) ∧
    ((∃ value, result = .ok value) ∨ ∃ error, result = .error (.threw error))
  unfolds : (∀ index, ¬TransGen (Refers document) index index) →
    ∀ depth (value : Value μ),
      initString hash strtod parserError problem document depth = .ok value →
        Unfolds hash strtod document 1 value

/-- A mapping has scalars for keys, and not too many for a table. -/
def Node.Ordinary (document : Document) : Node → Prop
  | mapping pairs => pairs.length ≤ Map.maxCapacity ∧
    ∀ pair ∈ pairs, ∃ scalar, document.getNode pair.1 = some (.scalar scalar)
  | _ => True

/-- From the root no cycle is reached, and no mapping that is not ordinary. -/
structure Loadable (document : Document) : Prop where
  cycleFree : CycleFree (Descends document) 1
  ordinary : ∀ index node, ReflTransGen (Descends document) 1 index →
    document.getNode index = some node → node.Ordinary document

variable {hash : StringHash} {strtod : Strtod} {document : Document} {index : Nat} {node : Node}

/-! ### The last pair -/

section LastWins

variable {α : Type} {entries : StrMap α}

theorem find_updateAll (hash : StringHash) (map entries : StrMap α) (key : Str) :
    (StrMap.updateAll hash map entries).find hash key =
      (StrMap.find hash entries.reverse key).or (map.find hash key) := by
  induction entries generalizing map with
  | nil => rfl
  | cons entry rest ih =>
    rw [StrMap.updateAll_cons, ih, StrMap.find_update, List.reverse_cons, StrMap.find_snoc]
    cases StrMap.find hash rest.reverse key with
    | some value => rfl
    | none =>
      rw [Option.none_or, Option.none_or]
      split <;> rfl

theorem apart_update (apart : StrMap.Apart hash map) (key : Str) (value : α) :
    StrMap.Apart hash (StrMap.update hash map key value) := by
  unfold StrMap.update
  cases found : StrMap.find hash map key with
  | some old =>
    refine (StrMap.apart_congr ?_).mp apart
    rw [List.map_map]
    apply List.map_congr_left
    intro entry _
    dsimp only [Function.comp_apply]
    split <;> rfl
  | none =>
    refine List.pairwise_append.mpr ⟨apart, List.pairwise_singleton _ _, ?_⟩
    intro entry member new same
    rw [List.mem_singleton.mp same]
    exact StrMap.find_eq_none.mp found entry member

theorem apart_updateAll (apart : StrMap.Apart hash map) (entries : StrMap α) :
    StrMap.Apart hash (StrMap.updateAll hash map entries) := by
  induction entries generalizing map with
  | nil => exact apart
  | cons entry rest ih => exact ih (apart_update apart entry.1 entry.2)

theorem order_updateAll (hash : StringHash) (map entries : StrMap α) :
    ∃ added, added.Sublist (entries.map Prod.fst) ∧
      (StrMap.updateAll hash map entries).map Prod.fst = map.map Prod.fst ++ added := by
  induction entries generalizing map with
  | nil => exact ⟨[], List.Sublist.refl _, (List.append_nil _).symm⟩
  | cons entry rest ih =>
    obtain ⟨added, sublist, keys⟩ := ih (StrMap.update hash map entry.1 entry.2)
    rw [StrMap.updateAll_cons, keys]
    unfold StrMap.update
    cases StrMap.find hash map entry.1 with
    | some old =>
      refine ⟨added, sublist.cons _, ?_⟩
      congr 1
      rw [List.map_map]
      apply List.map_congr_left
      intro other _
      dsimp only [Function.comp_apply]
      split <;> rfl
    | none =>
      refine ⟨entry.1 :: added, sublist.cons_cons _, ?_⟩
      rw [List.map_append, List.append_assoc]
      rfl

theorem lastWins_updateAll (hash : StringHash) (entries : StrMap α) :
    LastWins hash entries (StrMap.updateAll hash [] entries) := by
  have find (key : Str) : (StrMap.updateAll hash [] entries).find hash key =
      StrMap.find hash entries.reverse key := by
    rw [find_updateAll]
    exact Option.or_none
  have apart : (StrMap.updateAll hash [] entries).Apart hash := apart_updateAll List.Pairwise.nil _
  have order : ((StrMap.updateAll hash [] entries).map Prod.fst).Sublist (entries.map Prod.fst) := by
    obtain ⟨added, sublist, keys⟩ := order_updateAll hash [] entries
    rw [keys]
    exact sublist
  refine ⟨find, apart, order, fun told key value => ?_⟩
  have known {key : Str} {value : α} (member : (key, value) ∈ StrMap.updateAll hash [] entries) :
      ∃ entry ∈ entries, entry.1 = key :=
    List.mem_map.mp (order.subset (List.mem_map_of_mem member))
  -- among the keys of the pairs the two comparisons agree
  have agree (known : ∃ entry ∈ entries, entry.1 = key) :
      entries.reverse.find? (fun entry => stringEq hash entry.1 key) =
        entries.reverse.find? (fun entry => entry.1 == key) := by
    obtain ⟨entry, member, rfl⟩ := known
    refine List.find?_congr fun other present => ?_
    apply Bool.eq_iff_iff.mpr
    rw [beq_iff_eq]
    constructor
    · exact told other (List.mem_reverse.mp present) entry member
    · intro same
      rw [same]
      exact stringEq_refl hash entry.1
  constructor
  · intro member
    have found := (find key).symm.trans (StrMap.find_of_mem apart member)
    obtain ⟨⟨stored, held⟩, present, same⟩ := Option.map_eq_some_iff.mp found
    rw [agree (known member)] at present
    have here := List.find?_some present
    rw [beq_iff_eq] at here
    cases here
    cases same
    exact present
  · intro present
    have here : ∃ entry ∈ entries, entry.1 = key :=
      ⟨_, List.mem_reverse.mp (List.mem_of_find?_eq_some present), rfl⟩
    have found : (StrMap.updateAll hash [] entries).find hash key = some value := by
      rw [find, StrMap.find, agree here, present]
      rfl
    obtain ⟨stored, member, same⟩ := StrMap.find_some found
    obtain ⟨entry, inside, rfl⟩ := here
    obtain ⟨other, otherInside, rfl⟩ := known member
    rw [← told other otherInside entry inside same]
    exact member

end LastWins

/-! ### The recursion -/

theorem ok_of_bind {step : MapResult α} {next : α → MapResult β} (success : step >>= next = .ok result) :
    ∃ value, step = .ok value ∧ next value = .ok result := by
  cases step with
  | error failure => cases success
  | ok value => exact ⟨value, rfl, success⟩

/-- What the loop over the pairs has met when it ends. -/
theorem updatePairs_ok {init : Node → MapResult (Value μ)} {map after : Map (Value μ)}
    {pairs : List (Nat × Nat)} (takes : Map.Takes hash pairs.length map)
    (success : updatePairs document init hash map pairs = .ok after) :
    ∃ entries : List (Str × Value μ),
      List.Forall₂ (fun pair entry => document.getNode pair.1 = some (.scalar entry.1)) pairs entries ∧
      List.Forall₂ (fun index value => ∃ node, document.getNode index = some node ∧
        init node = .ok value) (pairs.map Prod.snd) (entries.map Prod.snd) ∧
      after.pairs = StrMap.updateAll hash map.pairs entries := by
  induction pairs generalizing map with
  | nil =>
    cases success
    exact ⟨[], .nil, .nil, rfl⟩
  | cons pair pairs ih =>
    rw [updatePairs] at success
    split at success
    · rename_i keyScalar valueNode keyHere valueHere
      obtain ⟨tmp, built, success⟩ := ok_of_bind success
      obtain ⟨next, updated, success⟩ := ok_of_bind success
      obtain ⟨_, same, takesNext, written⟩ := takes.update keyScalar tmp
      cases updated.symm.trans same
      obtain ⟨entries, keys, values, result⟩ := ih takesNext success
      refine ⟨(keyScalar, tmp) :: entries, .cons keyHere keys,
        .cons ⟨valueNode, valueHere, built⟩ values, ?_⟩
      rw [result, written, StrMap.updateAll_cons]
    · cases success

theorem exists_updatePairs {init : Node → MapResult (Value μ)} {map : Map (Value μ)}
    {pairs : List (Nat × Nat)} (takes : Map.Takes hash pairs.length map)
    (keys : ∀ pair ∈ pairs, ∃ scalar, document.getNode pair.1 = some (.scalar scalar))
    (values : ∀ pair ∈ pairs, ∃ node value, document.getNode pair.2 = some node ∧
      init node = .ok value) :
    ∃ after, updatePairs document init hash map pairs = .ok after := by
  induction pairs generalizing map with
  | nil => exact ⟨map, rfl⟩
  | cons pair pairs ih =>
    obtain ⟨scalar, keyHere⟩ := keys pair List.mem_cons_self
    obtain ⟨node, value, valueHere, built⟩ := values pair List.mem_cons_self
    obtain ⟨next, updated, takesNext, -⟩ := takes.update scalar value
    obtain ⟨after, success⟩ := ih takesNext
      (fun other member => keys other (List.mem_cons_of_mem _ member))
      (fun other member => values other (List.mem_cons_of_mem _ member))
    refine ⟨after, ?_⟩
    rw [updatePairs, keyHere, valueHere]
    dsimp only
    rw [built]
    change (map.update hash scalar value >>= _) = _
    rw [updated]
    exact success

theorem pushItems_ok {init : Node → MapResult (Value μ)} {items : List Nat} {values : List (Value μ)}
    (success : pushItems document init items = .ok values) :
    List.Forall₂ (fun index value => ∃ node, document.getNode index = some node ∧
      init node = .ok value) items values := by
  induction items generalizing values with
  | nil =>
    cases success
    exact .nil
  | cons item items ih =>
    rw [pushItems] at success
    split at success
    · rename_i node here
      obtain ⟨tmp, built, success⟩ := ok_of_bind success
      obtain ⟨stack, pushed, same⟩ := ok_of_bind success
      cases same
      exact .cons ⟨node, here, built⟩ (ih pushed)
    · cases success

theorem exists_pushItems {init : Node → MapResult (Value μ)} {items : List Nat}
    (values : ∀ item ∈ items, ∃ node value, document.getNode item = some node ∧
      init node = .ok value) :
    ∃ values, pushItems document init items = .ok values := by
  induction items with
  | nil => exact ⟨[], rfl⟩
  | cons item items ih =>
    obtain ⟨node, value, here, built⟩ := values item List.mem_cons_self
    obtain ⟨stack, pushed⟩ := ih fun other member => values other (List.mem_cons_of_mem _ member)
    refine ⟨value :: stack, ?_⟩
    rw [pushItems, here]
    dsimp only
    rw [built]
    change (pushItems document init items >>= _) = _
    rw [pushed]
    rfl

/-- Deeper calls change no value. -/
theorem updatePairs_mono {init deeper : Node → MapResult (Value μ)}
    (mono : ∀ node value, init node = .ok value → deeper node = .ok value)
    {map after : Map (Value μ)} {pairs : List (Nat × Nat)}
    (success : updatePairs document init hash map pairs = .ok after) :
    updatePairs document deeper hash map pairs = .ok after := by
  induction pairs generalizing map with
  | nil => exact success
  | cons pair pairs ih =>
    rw [updatePairs] at success ⊢
    split at success
    · obtain ⟨tmp, built, success⟩ := ok_of_bind success
      obtain ⟨next, updated, success⟩ := ok_of_bind success
      rw [mono _ _ built]
      change (map.update hash _ tmp >>= _) = _
      rw [updated]
      exact ih success
    · cases success

theorem pushItems_mono {init deeper : Node → MapResult (Value μ)}
    (mono : ∀ node value, init node = .ok value → deeper node = .ok value)
    {items : List Nat} {values : List (Value μ)}
    (success : pushItems document init items = .ok values) :
    pushItems document deeper items = .ok values := by
  induction items generalizing values with
  | nil => exact success
  | cons item items ih =>
    rw [pushItems] at success ⊢
    split at success
    · obtain ⟨tmp, built, success⟩ := ok_of_bind success
      obtain ⟨stack, pushed, same⟩ := ok_of_bind success
      cases same
      rw [mono _ _ built]
      change (pushItems document deeper items >>= _) = _
      rw [ih pushed]
      rfl
    · cases success

theorem initNode_succ {depth : Nat} {value : Value μ}
    (success : initNode hash strtod document depth node = .ok value) :
    initNode hash strtod document (depth + 1) node = .ok value := by
  induction depth generalizing node value with
  | zero => cases success
  | succ depth ih =>
    cases node with
    | scalar scalar => exact success
    | sequence items =>
      obtain ⟨stack, pushed, same⟩ := ok_of_bind success
      cases same
      change (pushItems document (initNode hash strtod document (depth + 1)) items >>= _) = _
      rw [pushItems_mono (fun _ _ built => ih built) pushed]
      rfl
    | mapping pairs =>
      obtain ⟨map, created, success⟩ := ok_of_bind success
      obtain ⟨filled, updated, same⟩ := ok_of_bind success
      cases same
      change (Map.ctor pairs.length >>= _) = _
      rw [created]
      change (updatePairs document (initNode hash strtod document (depth + 1)) hash map pairs >>= _) = _
      rw [updatePairs_mono (fun _ _ built => ih built) updated]
      rfl

theorem initNode_mono {depth deeper : Nat} {value : Value μ} (more : depth ≤ deeper)
    (success : initNode hash strtod document depth node = .ok value) :
    initNode hash strtod document deeper node = .ok value := by
  induction more with
  | refl => exact success
  | step _ ih => exact initNode_succ ih

theorem descends_iff (here : document.getNode index = some node) (other : Nat) :
    Descends document index other ↔ other ∈ node.descents := by
  constructor
  · rintro ⟨_, same, member⟩
    cases here.symm.trans same
    exact member
  · intro member
    exact ⟨node, here, member⟩

theorem left_related {R : α → β → Prop} {left : List α} {right : List β}
    (related : List.Forall₂ R left right) : ∀ first ∈ left, ∃ second ∈ right, R first second := by
  induction related with
  | nil => exact fun _ member => nomatch member
  | cons here _ ih =>
    intro first member
    rcases List.mem_cons.mp member with rfl | later
    · exact ⟨_, List.mem_cons_self, here⟩
    · obtain ⟨second, inside, same⟩ := ih first later
      exact ⟨second, List.mem_cons_of_mem _ inside, same⟩

/-- What a node has that has become a value: the value is what it stands for, and below it there
is no cycle and nothing that is not ordinary. -/
structure Became (hash : StringHash) (strtod : Strtod) (document : Document) (index : Nat)
    (value : Value μ) : Prop where
  unfolds : Unfolds hash strtod document index value
  cycleFree : CycleFree (Descends document) index
  ordinary : ∀ other node, ReflTransGen (Descends document) index other →
    document.getNode other = some node → node.Ordinary document

/-- The part about what is below a node, from the nodes it descends to. -/
theorem below_of_children (here : document.getNode index = some node)
    (ordinary : node.Ordinary document)
    (children : ∀ child ∈ node.descents, ∃ value : Value μ, Became hash strtod document child value) :
    CycleFree (Descends document) index ∧
      ∀ other node, ReflTransGen (Descends document) index other →
        document.getNode other = some node → node.Ordinary document := by
  have become (child : Nat) (down : Descends document index child) :
      ∃ value : Value μ, Became hash strtod document child value :=
    children child ((descends_iff here child).mp down)
  constructor
  · apply cycleFree_of_next
    intro child down
    obtain ⟨value, became⟩ := become child down
    exact became.cycleFree
  · intro other found path there
    rcases reached_cases path with rfl | ⟨child, down, further⟩
    · cases here.symm.trans there
      exact ordinary
    · obtain ⟨value, became⟩ := become child down
      exact became.ordinary other found further there

theorem initNode_became {depth : Nat} {value : Value μ}
    (success : initNode hash strtod document depth node = .ok value)
    (here : document.getNode index = some node) : Became hash strtod document index value := by
  induction depth generalizing index node value with
  | zero => cases success
  | succ depth ih =>
    have became {indices : List Nat} {values : List (Value μ)}
        (built : List.Forall₂ (fun index value => ∃ node, document.getNode index = some node ∧
          initNode hash strtod document depth node = .ok value) indices values) :
        List.Forall₂ (Became hash strtod document) indices values :=
      built.imp fun _ _ ⟨_, there, built⟩ => ih built there
    cases node with
    | scalar scalar =>
      cases success
      obtain ⟨cycleFree, ordinary⟩ := @below_of_children μ hash strtod document index _ here trivial
        fun _ member => nomatch member
      exact ⟨.scalar index scalar here, cycleFree, ordinary⟩
    | sequence items =>
      obtain ⟨stack, pushed, same⟩ := ok_of_bind success
      cases same
      have children := became (pushItems_ok pushed)
      obtain ⟨cycleFree, ordinary⟩ := below_of_children here trivial fun child member => by
        obtain ⟨value, -, became⟩ := left_related children child member
        exact ⟨value, became⟩
      exact ⟨.sequence index items stack here (children.imp fun _ _ became => became.unfolds),
        cycleFree, ordinary⟩
    | mapping pairs =>
      obtain ⟨map, created, success⟩ := ok_of_bind success
      obtain ⟨filled, updated, same⟩ := ok_of_bind success
      cases same
      obtain ⟨takes, nothing⟩ := Map.Takes.ctor hash created
      obtain ⟨entries, keys, values, written⟩ := updatePairs_ok takes updated
      have children := became values
      have kept : Node.Ordinary document (.mapping pairs) := by
        refine ⟨(Map.ctor_iff _).mp ⟨map, created⟩, fun pair member => ?_⟩
        obtain ⟨entry, -, key⟩ := left_related keys pair member
        exact ⟨entry.1, key⟩
      obtain ⟨cycleFree, ordinary⟩ := below_of_children here kept fun child member => by
        obtain ⟨value, -, became⟩ := left_related children child member
        exact ⟨value, became⟩
      refine ⟨.mapping index pairs entries _ here keys (children.imp fun _ _ became => became.unfolds)
        ?_, cycleFree, ordinary⟩
      rw [written, nothing]
      exact lastWins_updateAll hash entries

theorem error_of_bind {failure : MapFailure} {step : MapResult α} {next : α → MapResult β}
    (failed : step >>= next = .error failure) :
    step = .error failure ∨ ∃ value, step = .ok value ∧ next value = .error failure := by
  cases step with
  | error other =>
    cases failed
    exact .inl rfl
  | ok value => exact .inr ⟨value, rfl, failed⟩

theorem pushItems_threw {init : Node → MapResult (Value μ)}
    (quiet : ∀ node error, init node ≠ .error (.threw error)) (items : List Nat) (error : Error) :
    pushItems document init items ≠ .error (.threw error) := by
  induction items with
  | nil => exact nofun
  | cons item items ih =>
    intro failed
    rw [pushItems] at failed
    split at failed
    · rcases error_of_bind failed with failed | ⟨tmp, -, failed⟩
      · exact quiet _ _ failed
      · rcases error_of_bind failed with failed | ⟨stack, -, failed⟩
        · exact ih failed
        · cases failed
    · cases failed

theorem updatePairs_threw {init : Node → MapResult (Value μ)}
    (quiet : ∀ node error, init node ≠ .error (.threw error)) {map : Map (Value μ)}
    {pairs : List (Nat × Nat)} (takes : Map.Takes hash pairs.length map) (error : Error) :
    updatePairs document init hash map pairs ≠ .error (.threw error) := by
  induction pairs generalizing map with
  | nil => exact nofun
  | cons pair pairs ih =>
    intro failed
    rw [updatePairs] at failed
    split at failed
    · rename_i keyScalar _ _ _
      rcases error_of_bind failed with failed | ⟨tmp, -, failed⟩
      · exact quiet _ _ failed
      · obtain ⟨next, updated, takesNext, -⟩ := takes.update keyScalar tmp
        rw [updated] at failed
        exact ih takesNext failed
    · cases failed

/-- The function itself reports no error. -/
theorem initNode_threw (depth : Nat) (node : Node) (error : Error) :
    (initNode hash strtod document depth node : MapResult (Value μ)) ≠ .error (.threw error) := by
  induction depth generalizing node error with
  | zero => exact nofun
  | succ depth ih =>
    intro failed
    cases node with
    | scalar scalar => cases failed
    | sequence items =>
      rcases error_of_bind failed with failed | ⟨stack, -, failed⟩
      · exact pushItems_threw ih items error failed
      · cases failed
    | mapping pairs =>
      rcases error_of_bind failed with failed | ⟨map, created, failed⟩
      · unfold Map.ctor at failed
        split at failed
        · cases failed
        · cases failed
      · rcases error_of_bind failed with failed | ⟨filled, -, failed⟩
        · exact updatePairs_threw ih (Map.Takes.ctor hash created).1 error failed
        · cases failed

/-! ### Documents -/

theorem exists_getNode (positive : 0 < index) (inside : index ≤ document.nodes.length) :
    ∃ node, document.getNode index = some node := by
  refine ⟨document.nodes[index - 1], ?_⟩
  rw [Document.getNode, if_pos positive]
  exact List.getElem?_eq_getElem _

theorem getNode_mem (here : document.getNode index = some node) : node ∈ document.nodes := by
  unfold Document.getNode at here
  split at here
  · exact List.mem_of_getElem? here
  · cases here

theorem descents_subset (node : Node) : node.descents ⊆ node.references := by
  cases node with
  | scalar scalar => exact List.Subset.refl _
  | sequence items => exact List.Subset.refl _
  | mapping pairs =>
    intro index member
    obtain ⟨pair, inside, rfl⟩ := List.mem_map.mp member
    exact List.mem_flatMap.mpr ⟨pair, inside, List.mem_cons_of_mem _ List.mem_cons_self⟩

/-- Where the document has nodes, the calls lead to nodes. -/
theorem reached_inside (present : document.nodes ≠ [])
    (reached : ReflTransGen (Descends document) 1 index) :
    0 < index ∧ index ≤ document.nodes.length := by
  rcases reached.cases_tail with rfl | ⟨before, -, node, here, down⟩
  · exact ⟨Nat.one_pos, List.length_pos_of_ne_nil present⟩
  · exact document.inside node (getNode_mem here) index (descents_subset node down)

/-- Calls as deep as there are nodes are enough for a document without cycles. -/
theorem Loadable.init (loadable : Loadable document) (present : document.nodes ≠ [])
    {depth : Nat} (enough : document.nodes.length ≤ depth) :
    ∃ node, ∃ value : Value μ, document.getNode 1 = some node ∧
      initNode hash strtod document depth node = .ok value := by
  have inside (index : Nat) (reached : ReflTransGen (Descends document) 1 index) :
      index ∈ List.range' 1 document.nodes.length := by
    have bounds := reached_inside present reached
    rw [List.mem_range'_1]
    omega
  have enough : (List.range' 1 document.nodes.length).length ≤ depth := by
    rwa [List.length_range']
  refine induction_nodes (P := fun depth index => ∃ node, ∃ value : Value μ,
    document.getNode index = some node ∧ initNode hash strtod document depth node = .ok value)
    _ inside loadable.cycleFree ?_ enough
  intro depth index reached children
  obtain ⟨positive, last⟩ := reached_inside present reached
  obtain ⟨node, here⟩ := exists_getNode positive last
  have below (child : Nat) (member : child ∈ node.descents) := children child ⟨node, here, member⟩
  refine ⟨node, ?_⟩
  cases node with
  | scalar scalar => exact ⟨_, here, rfl⟩
  | sequence items =>
    obtain ⟨stack, pushed⟩ : ∃ stack, pushItems document (initNode hash strtod document depth) items =
        .ok stack := exists_pushItems below
    refine ⟨.array 0 stack, here, ?_⟩
    change (pushItems document (initNode hash strtod document depth) items >>= _) = _
    rw [pushed]
    rfl
  | mapping pairs =>
    obtain ⟨few, keys⟩ := loadable.ordinary index _ reached here
    obtain ⟨map, created⟩ := (Map.ctor_iff _).mpr few
    obtain ⟨filled, updated⟩ := exists_updatePairs (Map.Takes.ctor hash created).1 keys
      fun pair member => below pair.2 (List.mem_map_of_mem member)
    refine ⟨.map 0 filled.pairs, here, ?_⟩
    change (Map.ctor pairs.length >>= _) = _
    rw [created]
    change (updatePairs document (initNode hash strtod document depth) hash map pairs >>= _) = _
    rw [updated]
    rfl

theorem getRootNode_eq (document : Document) : document.getRootNode = document.getNode 1 := by
  rw [Document.getRootNode, Document.getNode, if_pos Nat.one_pos, List.head?_eq_getElem?]

/-- A document is loaded as promised if from its root no cycle is reached, and no mapping whose
keys are not scalars or for which there is no table, and only then. -/
theorem yaml_document_iff (μ : Type) (hash : StringHash) (strtod : Strtod) (parserError : Nat)
    (problem : Str) (document : Document) :
    Loads μ hash strtod parserError problem document ↔ Loadable document := by
  by_cases present : document.nodes = []
  · have nothing (index : Nat) (node : Node) : document.getNode index ≠ some node := by
      intro here
      have member := getNode_mem here
      rw [present] at member
      cases member
    have result (depth : Nat) : initString hash strtod parserError problem document depth =
        (.error (.threw ⟨.error, bytes "YAML Parse Error: [" ++ decimal parserError ++ bytes "] " ++
          problem, .zero⟩) : MapResult (Value μ)) := by
      rw [initString, Document.getRootNode, present]
      rfl
    refine iff_of_true ⟨⟨0, _, fun depth _ => result depth, .inr ⟨_, rfl⟩⟩, ?_⟩ ⟨?_, ?_⟩
    · intro _ depth value success
      cases (result depth).symm.trans success
    · apply cycleFree_of_next
      rintro child ⟨node, here, -⟩
      exact absurd here (nothing _ node)
    · intro index node _ here
      exact absurd here (nothing _ node)
  · obtain ⟨root, here⟩ := @exists_getNode document 1 Nat.one_pos (List.length_pos_of_ne_nil present)
    have start (depth : Nat) : (initString hash strtod parserError problem document depth :
        MapResult (Value μ)) = initNode hash strtod document depth root := by
      rw [initString, getRootNode_eq, here]
    constructor
    · rintro ⟨⟨enough, result, same, ⟨value, rfl⟩ | ⟨error, rfl⟩⟩, -⟩
      · have success := (start enough).symm.trans (same enough (Nat.le_refl _))
        have became := initNode_became success here
        exact ⟨became.cycleFree, became.ordinary⟩
      · exact absurd ((start enough).symm.trans (same enough (Nat.le_refl _)))
          (initNode_threw enough root error)
    · intro loadable
      obtain ⟨node, value, there, success⟩ :=
        @Loadable.init μ hash strtod document loadable present _ (Nat.le_refl _)
      cases here.symm.trans there
      refine ⟨⟨document.nodes.length, .ok value, ?_, .inl ⟨value, rfl⟩⟩, ?_⟩
      · intro depth enough
        exact (start depth).trans (initNode_mono enough success)
      · intro _ depth value success
        exact (initNode_became ((start depth).symm.trans success) here).unfolds

/-- A sequence whose only item is an alias to it. -/
def selfAlias : Document where
  nodes := [.sequence [1]]
  inside := by decide

theorem initNode_selfAlias (hash : StringHash) (strtod : Strtod) (depth : Nat) :
    (initNode hash strtod selfAlias depth (.sequence [1]) : MapResult (Value μ)) =
      .error .exhausted := by
  induction depth with
  | zero => rfl
  | succ depth ih =>
    have there : selfAlias.getNode 1 = some (.sequence [1]) := rfl
    change (pushItems selfAlias (initNode hash strtod selfAlias depth) [1] >>= _) = _
    rw [pushItems, there]
    dsimp only
    rw [ih]
    rfl

/-- Its value is sought for ever. -/
theorem not_loads_alias : ¬∀ (hash : StringHash) (strtod : Strtod) (parserError : Nat)
    (problem : Str) (document : Document), Loads Unit hash strtod parserError problem document := by
  intro loads
  obtain ⟨enough, result, same, ended⟩ :=
    (loads (fun _ => 0) (fun text => (0, text)) 0 [] selfAlias).ends
  have result_eq : result = .error .exhausted :=
    (same enough (Nat.le_refl _)).symm.trans (initNode_selfAlias _ _ enough)
  rw [result_eq] at ended
  rcases ended with ⟨value, ended⟩ | ⟨error, ended⟩
  · cases ended
  · cases ended

end HandlebarsC.Yaml
