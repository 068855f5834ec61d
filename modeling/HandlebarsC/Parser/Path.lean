import HandlebarsC.Core.Ast
import HandlebarsC.Core.Text
import HandlebarsC.Foundation.Linked

/-!
The segments of a path, and the node that `handlebars_ast_helper_prepare_path` makes of
them: it takes segments out of the list that it walks over.
-/

namespace HandlebarsC.Parser

/-- `struct handlebars_ast_list` of nodes, which are known by their numbers. -/
abbrev AstList := Linked Nat

/-- `handlebars_ast_list_remove` -/
def astListRemove (list : AstList) (node : Nat) : AstList :=
  if list.first.isNone || list.last.isNone then list
  else match Linked.search list.items node list.count list.first with
    | some (addr, item) => list.unlink addr item
    | none => list

/-- `handlebars_ast_helper_strip_id_literal` -/
def stripIdLiteral (text : Str) : Str :=
  if text.head? = some 91 ∧ text.getLast? = some 93 then
    (truncate text 1 (text.length - 1)).getD text
  else text

/-- The `path_segment` of a node. -/
structure PathSegment where
  part : Option Str
  original : Str
  separator : Option Str

/-- What the lexer returns for a segment: the `SEP` before it, and the `ID`. -/
structure SegmentToken where
  separator : Option Str
  text : Str
  deriving DecidableEq

/-- `handlebars_ast_node_ctor_path_segment` -/
def SegmentToken.node (token : SegmentToken) : PathSegment :=
  ⟨some (stripIdLiteral token.text), token.text, token.separator⟩

/-- `path_segments`: a list with an item for each segment, in their order. -/
def pathSegments (tokens : List SegmentToken) : AstList :=
  (List.range tokens.length).foldl (fun list node => list.append node node) Linked.empty

/-- What `handlebars_ast_helper_prepare_path` keeps track of. -/
structure Walked where
  parts : AstList
  original : Str
  depth : Nat
  count : Nat

def isStepText (text : Str) : Bool :=
  text = bytes ".." || text = bytes "." || text = bytes "this"

def invalidPath (original : Str) (loc : LocInfo) : Error :=
  ⟨.error, bytes "Invalid path: " ++ cstring original, loc⟩

/-- The body of the loop of `handlebars_ast_helper_prepare_path`. -/
def acceptSegment (hash : StringHash) (loc : LocInfo) (walked : Walked) (node : Nat)
    (segment : PathSegment) : Except Error Walked :=
  match segment.part with
  | none => .ok walked
  | some part =>
    let original := walked.original ++ segment.separator.getD [] ++ part
    let isLiteral := !stringEq hash part segment.original
    if !isLiteral && isStepText part then
      if 0 < walked.count then .error (invalidPath original loc)
      else .ok { walked with
        original := original
        depth := if part = bytes ".." then walked.depth + 1 else walked.depth
        parts := astListRemove walked.parts node }
    else .ok { walked with original := original, count := walked.count + 1 }

/-- The loop, from an item on. There is no result where it would read an item that is not
there, or would not end. -/
def preparePathLoop (hash : StringHash) (nodes : List PathSegment) (loc : LocInfo) :
    Nat → Option Nat → Walked → Option (Except Error Walked)
  | _, none, walked => some (.ok walked)
  | 0, some _, _ => none
  | left + 1, some addr, walked =>
    (walked.parts.items addr).bind fun item =>
    nodes[item.data]?.bind fun segment =>
    match acceptSegment hash loc walked item.data segment with
    | .error error => some (.error error)
    | .ok walked => preparePathLoop hash nodes loc left item.next walked

/-- `struct handlebars_ast_node_path`, with its list of parts. -/
structure PreparedPath where
  loc : LocInfo
  parts : AstList
  original : Str
  depth : Nat
  data : Bool

/-- `handlebars_ast_helper_prepare_path` -/
def preparePath (hash : StringHash) (nodes : List PathSegment) (parts : AstList) (data : Bool)
    (loc : LocInfo) : Option (Except Error PreparedPath) :=
  (preparePathLoop hash nodes loc parts.count parts.first
    ⟨parts, if data then bytes "@" else [], 0, 0⟩).map fun result =>
      result.map fun walked => ⟨loc, walked.parts, walked.original, walked.depth, data⟩

/-- The path as the later passes see it. -/
def PreparedPath.node (path : PreparedPath) (nodes : List PathSegment) : PathNode where
  loc := path.loc
  original := some path.original
  parts := path.parts.toList.filterMap fun node => nodes[node]?.bind PathSegment.part
  depth := path.depth
  data := path.data

namespace SegmentToken

/-- `..`, `.` or `this` without brackets. -/
def isStep (token : SegmentToken) : Bool := isStepText token.text

/-- A segment without its brackets. -/
def part (token : SegmentToken) : Str := stripIdLiteral token.text

/-- A segment as it stands in the original text of its path. -/
def written (token : SegmentToken) : Str := token.separator.getD [] ++ token.part

end SegmentToken

/-- A step that comes after a segment that is none. -/
def Misplaced (tokens : List SegmentToken) : Prop :=
  ∃ front step back, tokens = front ++ step :: back ∧ step.isStep = true ∧
    ∃ token ∈ front, token.isStep = false

/-- Whether a step comes after a segment that is none, when there has been one or not. -/
def misplaced : Bool → List SegmentToken → Bool
  | _, [] => false
  | kept, token :: rest => if token.isStep then kept || misplaced kept rest else misplaced true rest

theorem misplaced_true_iff (tokens : List SegmentToken) :
    misplaced true tokens = true ↔ ∃ token ∈ tokens, token.isStep = true := by
  induction tokens with
  | nil => simp [misplaced]
  | cons token rest ih =>
    unfold misplaced
    cases step : token.isStep with
    | true => simp [step]
    | false => simp [ih, step]

theorem misplaced_iff (tokens : List SegmentToken) :
    misplaced false tokens = true ↔ Misplaced tokens := by
  induction tokens with
  | nil =>
    refine iff_of_false nofun ?_
    rintro ⟨front, step, back, same, -⟩
    exact absurd same.symm (by simp)
  | cons token rest ih =>
    unfold misplaced
    cases isStep : token.isStep with
    | true =>
      rw [if_pos rfl, Bool.false_or, ih]
      constructor
      · rintro ⟨front, step, back, rfl, here, kept, member, other⟩
        exact ⟨token :: front, step, back, rfl, here, kept, List.mem_cons_of_mem _ member, other⟩
      · rintro ⟨front, step, back, same, here, kept, member, other⟩
        cases front with
        | nil => cases member
        | cons first front =>
          obtain ⟨rfl, rfl⟩ := List.cons.inj same
          rcases List.mem_cons.mp member with rfl | later
          · exact absurd (isStep.symm.trans other) (by decide)
          · exact ⟨front, step, back, rfl, here, kept, later, other⟩
    | false =>
      rw [if_neg Bool.false_ne_true, misplaced_true_iff]
      constructor
      · rintro ⟨step, member, here⟩
        obtain ⟨front, back, rfl⟩ := List.append_of_mem member
        exact ⟨token :: front, step, back, rfl, here, token, List.mem_cons_self, isStep⟩
      · rintro ⟨front, step, back, same, here, -⟩
        cases front with
        | nil =>
          obtain ⟨rfl, -⟩ := List.cons.inj same
          exact absurd (isStep.symm.trans here) (by decide)
        | cons first front =>
          obtain ⟨-, rfl⟩ := List.cons.inj same
          exact ⟨step, by simp, here⟩

/-- The brackets are two bytes, so that there is something to cut from each side. -/
theorem truncate_brackets {text : Str} (first : text.head? = some 91)
    (last : text.getLast? = some 93) :
    truncate text 1 (text.length - 1) = some ((text.take (text.length - 1)).drop 1) := by
  have two : 1 < text.length := by
    cases text with
    | nil => cases first
    | cons char rest =>
      cases rest with
      | nil => exact absurd (Option.some.inj (first.symm.trans last)) (by decide)
      | cons second rest => simp
  have inside : text.length - 1 < text.length := by omega
  have start : 1 ≤ (text.take (text.length - 1)).length := by
    rw [List.length_take]
    omega
  unfold truncate
  simp only [inside, start, if_true]

/-- Only brackets are taken off, and they count in the length. -/
theorem stripIdLiteral_cases (text : Str) :
    stripIdLiteral text = text ∨ (stripIdLiteral text).length < text.length := by
  unfold stripIdLiteral
  by_cases brackets : text.head? = some 91 ∧ text.getLast? = some 93
  · rw [if_pos brackets, truncate_brackets brackets.1 brackets.2]
    right
    cases text with
    | nil => exact absurd brackets.1 nofun
    | cons char rest =>
      simp only [Option.getD_some, List.length_drop, List.length_take, List.length_cons]
      omega
  · exact .inl (if_neg brackets)

/-- What the comparison of the two copies of a segment recognises. -/
theorem isStep_iff (hash : StringHash) (token : SegmentToken) :
    (!(!stringEq hash token.part token.text) && isStepText token.part) = token.isStep := by
  unfold SegmentToken.part SegmentToken.isStep
  rcases stripIdLiteral_cases token.text with same | shorter
  · rw [same, stringEq_refl]
    simp
  · have other : stringEq hash (stripIdLiteral token.text) token.text = false := by
      rw [Bool.eq_false_iff]
      intro equal
      have lengths := ((stringEq_iff _ _ _).mp equal).1
      omega
    have plain : isStepText token.text = false := by
      rw [Bool.eq_false_iff]
      intro step
      unfold isStepText at step
      simp only [Bool.or_eq_true, decide_eq_true_eq] at step
      rcases step with (same | same) | same
      · rw [same] at shorter
        exact absurd shorter (by decide)
      · rw [same] at shorter
        exact absurd shorter (by decide)
      · rw [same] at shorter
        exact absurd shorter (by decide)
    rw [other, plain]
    rfl

/-- What one segment does, by what stands in the token. -/
theorem acceptSegment_eq (hash : StringHash) (loc : LocInfo) (walked : Walked) (node : Nat)
    (token : SegmentToken) :
    acceptSegment hash loc walked node token.node =
      if token.isStep then
        if 0 < walked.count then .error (invalidPath (walked.original ++ token.written) loc)
        else .ok { walked with
          original := walked.original ++ token.written
          depth := if token.text = bytes ".." then walked.depth + 1 else walked.depth
          parts := astListRemove walked.parts node }
      else .ok { walked with
        original := walked.original ++ token.written
        count := walked.count + 1 } := by
  have written : walked.original ++ token.node.separator.getD [] ++ stripIdLiteral token.text =
      walked.original ++ token.written := List.append_assoc _ _ _
  have climbs : token.isStep = true →
      (stripIdLiteral token.text = bytes ".." ↔ token.text = bytes "..") := by
    intro step
    have equal := isStep_iff (fun _ => 0) token
    rw [step, Bool.and_eq_true, Bool.not_eq_true', Bool.not_eq_false'] at equal
    have lengths := ((stringEq_iff _ _ _).mp equal.1).1
    rcases stripIdLiteral_cases token.text with same | shorter
    · rw [same]
    · exact absurd lengths (Nat.ne_of_lt shorter)
  unfold acceptSegment
  change (if (!(!stringEq hash token.part token.text) && isStepText token.part) = true then _
    else _) = _
  rw [isStep_iff, written]
  cases step : token.isStep with
  | false => rfl
  | true =>
    simp only [climbs step, if_true]

/-- An item of a list with the token that its node was made from. -/
structure Placed where
  addr : Nat
  node : Nat
  token : SegmentToken

def Placed.cell (placed : Placed) : Nat × Nat := (placed.addr, placed.node)

/-- Removing the node of the first item. -/
theorem astListRemove_head {list : AstList} {placed : Placed} {rest : List (Nat × Nat)}
    (holds : Linked.Holds list (placed.cell :: rest)) :
    Linked.Holds (astListRemove list placed.node) rest := by
  have first : list.first = some placed.addr := holds.first
  have last : list.last.isNone = false := by
    rw [holds.last]
    exact Linked.isNone_final_cons _ _ _
  have enough : ([] : List (Nat × Nat)).length < list.count := by
    rw [holds.count]
    simp
  have chain : Linked.Chain list.items none ([] ++ (placed.addr, placed.node) :: rest) none :=
    holds.chain
  obtain ⟨item, present, found⟩ := chain.search (by simp) enough
  have whole : Linked.Holds list ([] ++ (placed.addr, placed.node) :: rest) := holds
  obtain ⟨other, same, -, -, unlinked⟩ := whole.unlink
  cases present.symm.trans same
  unfold astListRemove
  rw [first, last]
  change Linked.Holds (match Linked.search list.items placed.node list.count (some placed.addr) with
    | some (addr, item) => list.unlink addr item
    | none => list) rest
  have found : Linked.search list.items placed.node list.count (some placed.addr) =
      some (placed.addr, item) := found
  rw [found]
  exact unlinked

/-- What a walk over the segments has to end in. -/
structure Prepared (walked : Walked) (kept rest : List Placed) (result : Walked) : Prop where
  parts : Linked.Holds result.parts
    ((kept ++ rest.filter fun placed => !placed.token.isStep).map Placed.cell)
  original : result.original = walked.original ++ (rest.map fun placed => placed.token.written).flatten
  depth : result.depth =
    walked.depth + rest.countP fun placed => placed.token.text = bytes ".."

/-- A step at the front goes, and `..` is counted. -/
theorem Prepared.step {walked result : Walked} {removed : AstList} {placed : Placed}
    {kept rest : List Placed}
    (prepared : Prepared { walked with
      original := walked.original ++ placed.token.written
      depth := if placed.token.text = bytes ".." then walked.depth + 1 else walked.depth
      parts := removed } kept rest result)
    (isStep : placed.token.isStep = true) : Prepared walked kept (placed :: rest) result := by
  refine ⟨?_, ?_, ?_⟩
  · simpa [isStep] using prepared.parts
  · simpa using prepared.original
  · refine prepared.depth.trans ?_
    rw [List.countP_cons]
    simp only [decide_eq_true_eq]
    split <;> omega

/-- A segment that is no step stays behind the ones that were kept. -/
theorem Prepared.keep {walked result : Walked} {placed : Placed} {kept rest : List Placed}
    (prepared : Prepared { walked with
      original := walked.original ++ placed.token.written
      count := walked.count + 1 } (kept ++ [placed]) rest result)
    (isStep : placed.token.isStep = false) : Prepared walked kept (placed :: rest) result := by
  refine ⟨?_, ?_, ?_⟩
  · simpa [isStep] using prepared.parts
  · simpa using prepared.original
  · refine prepared.depth.trans ?_
    have other : placed.token.text ≠ bytes ".." := by
      intro climbs
      unfold SegmentToken.isStep isStepText at isStep
      simp [climbs] at isStep
    rw [List.countP_cons_of_neg]
    simpa using other

/-- One turn of the loop. -/
theorem preparePathLoop_cons (hash : StringHash) (loc : LocInfo) {nodes : List PathSegment}
    {kept rest : List Placed} {placed : Placed} {walked : Walked}
    (holds : Linked.Holds walked.parts ((kept ++ placed :: rest).map Placed.cell))
    (present : nodes[placed.node]? = some placed.token.node) :
    preparePathLoop hash nodes loc (left + 1) (Linked.head ((placed :: rest).map Placed.cell) none)
        walked =
      match acceptSegment hash loc walked placed.node placed.token.node with
      | .error error => some (.error error)
      | .ok walked =>
        preparePathLoop hash nodes loc left (Linked.head (rest.map Placed.cell) none) walked := by
  have chain := holds.chain
  rw [List.map_append, Linked.chain_append] at chain
  have here : walked.parts.items placed.addr = some ⟨placed.node, _, _⟩ := chain.2.1
  change preparePathLoop hash nodes loc (left + 1) (some placed.addr) walked = _
  conv_lhs => unfold preparePathLoop
  rw [here, Option.bind_some, present, Option.bind_some]

/-- The loop, from the first of the segments that are left on: before them lie only those that
are kept. -/
theorem preparePathLoop_spec (hash : StringHash) (nodes : List PathSegment) (loc : LocInfo)
    (rest : List Placed) (known : ∀ placed ∈ rest, nodes[placed.node]? = some placed.token.node)
    (kept : List Placed) (walked : Walked)
    (holds : Linked.Holds walked.parts ((kept ++ rest).map Placed.cell))
    (counted : walked.count = kept.length) (enough : rest.length ≤ left) :
    (misplaced (0 < walked.count) (rest.map Placed.token) = true ∧ ∃ error,
        preparePathLoop hash nodes loc left (Linked.head (rest.map Placed.cell) none) walked =
          some (.error error)) ∨
      (misplaced (0 < walked.count) (rest.map Placed.token) = false ∧ ∃ result,
        preparePathLoop hash nodes loc left (Linked.head (rest.map Placed.cell) none) walked =
          some (.ok result) ∧ Prepared walked kept rest result) := by
  induction rest generalizing kept walked left with
  | nil =>
    right
    refine ⟨rfl, walked, ?_, ?_, by simp, by simp⟩
    · cases left <;> rfl
    · simpa using holds
  | cons placed rest ih =>
    obtain ⟨left, rfl⟩ : ∃ less, left = less + 1 :=
      ⟨left - 1, by rw [List.length_cons] at enough; omega⟩
    have later : ∀ other ∈ rest, nodes[other.node]? = some other.token.node :=
      fun other member => known other (List.mem_cons_of_mem _ member)
    have fewer : rest.length ≤ left := by
      rw [List.length_cons] at enough
      omega
    rw [preparePathLoop_cons hash loc holds (known placed List.mem_cons_self), acceptSegment_eq,
      List.map_cons]
    unfold misplaced
    cases isStep : placed.token.isStep with
    | true =>
      by_cases some : 0 < walked.count
      · left
        simp [some]
      · have none : kept = [] := List.eq_nil_of_length_eq_zero (by omega)
        subst none
        simp only [some, if_true, if_false, decide_false, Bool.false_or]
        have removed := astListRemove_head holds
        rcases ih later [] { walked with
            original := walked.original ++ placed.token.written
            depth := if placed.token.text = bytes ".." then walked.depth + 1 else walked.depth
            parts := astListRemove walked.parts placed.node } removed counted fewer with
          ⟨wrong, error, ran⟩ | ⟨right, result, ran, prepared⟩
        · left
          simp only [some, decide_false] at wrong
          exact ⟨wrong, error, ran⟩
        · simp only [some, decide_false] at right
          exact .inr ⟨right, result, ran, prepared.step isStep⟩
    | false =>
      have moved : Linked.Holds walked.parts ((kept ++ [placed] ++ rest).map Placed.cell) := by
        simpa using holds
      rcases ih later (kept ++ [placed]) { walked with
          original := walked.original ++ placed.token.written
          count := walked.count + 1 } moved (by simp [counted]) fewer with
        ⟨wrong, error, ran⟩ | ⟨right, result, ran, prepared⟩
      · exact .inl ⟨by simpa using wrong, error, ran⟩
      · exact .inr ⟨by simpa using right, result, ran, prepared.keep isStep⟩

/-- The items of `path_segments` lie in the order of the tokens. -/
def placedTokens (tokens : List SegmentToken) : List Placed :=
  tokens.zipIdx.map fun entry => ⟨entry.2, entry.2, entry.1⟩

theorem holds_pathSegments (tokens : List SegmentToken) :
    Linked.Holds (pathSegments tokens) ((placedTokens tokens).map Placed.cell) := by
  have cells : (placedTokens tokens).map Placed.cell =
      (List.range tokens.length).map fun node => (node, node) := by
    unfold placedTokens
    rw [List.map_map, ← List.zipIdx_map_snd 0 tokens |>.trans List.range_eq_range'.symm,
      List.map_map]
    rfl
  rw [cells]
  unfold pathSegments
  induction tokens.length with
  | zero => exact Linked.holds_empty
  | succ count ih =>
    rw [List.range_succ, List.foldl_append, List.map_append]
    exact ih.append count (by simp)

theorem nodes_placedTokens (tokens : List SegmentToken) :
    ∀ placed ∈ placedTokens tokens,
      (tokens.map SegmentToken.node)[placed.node]? = some placed.token.node := by
  intro placed member
  obtain ⟨⟨token, index⟩, present, rfl⟩ := List.mem_map.mp member
  have found := List.mem_zipIdx_iff_getElem?.mp present
  rw [List.getElem?_map, found]
  rfl

theorem placedTokens_token (tokens : List SegmentToken) :
    (placedTokens tokens).map Placed.token = tokens := by
  unfold placedTokens
  rw [List.map_map]
  exact List.zipIdx_map_fst 0 tokens

theorem kept_nodes (tokens : List SegmentToken) :
    ((placedTokens tokens).filter fun placed => !placed.token.isStep).map
        (Prod.snd ∘ Placed.cell) =
      (tokens.zipIdx.filter fun entry => !entry.1.isStep).map Prod.snd := by
  unfold placedTokens
  rw [List.filter_map, List.map_map]
  rfl

theorem kept_parts (tokens : List SegmentToken) :
    (((placedTokens tokens).filter fun placed => !placed.token.isStep).map
        (Prod.snd ∘ Placed.cell)).filterMap
          (fun node => (tokens.map SegmentToken.node)[node]?.bind PathSegment.part) =
      (tokens.filter fun token => !token.isStep).map SegmentToken.part := by
  have known := nodes_placedTokens tokens
  conv_rhs =>
    rw [← placedTokens_token tokens, List.filter_map, List.map_map, ← List.filterMap_eq_map]
  rw [List.filterMap_map]
  apply List.filterMap_congr
  intro placed member
  have found := known placed (List.mem_of_mem_filter member)
  change (tokens.map SegmentToken.node)[placed.node]?.bind PathSegment.part = _
  rw [found]
  rfl

/-- The path throws exactly where a step comes after a segment that is none. Otherwise its depth
counts the steps up, its list holds the other segments in their order, and its original text is
what was written. -/
theorem prepare_path_spec (hash : StringHash) (tokens : List SegmentToken) (data : Bool)
    (loc : LocInfo) :
    ((∃ error, preparePath hash (tokens.map SegmentToken.node) (pathSegments tokens) data loc =
        some (.error error)) ↔ Misplaced tokens) ∧
      (¬Misplaced tokens → ∃ path cells,
        preparePath hash (tokens.map SegmentToken.node) (pathSegments tokens) data loc =
            some (.ok path) ∧
          path.depth = (tokens.countP fun token => token.text = bytes "..") ∧
          Linked.Holds path.parts cells ∧
          cells.map Prod.snd =
            ((tokens.zipIdx.filter fun entry => !entry.1.isStep).map Prod.snd) ∧
          (path.node (tokens.map SegmentToken.node)).parts =
            ((tokens.filter fun token => !token.isStep).map SegmentToken.part) ∧
          path.original = (if data then bytes "@" else []) ++
            (tokens.map SegmentToken.written).flatten ∧
          path.data = data ∧ path.loc = loc) := by
  have holds := holds_pathSegments tokens
  have known := nodes_placedTokens tokens
  have size : (placedTokens tokens).length ≤ (pathSegments tokens).count := by
    exact Nat.le_of_eq (by rw [holds.count, List.length_map])
  have outcome := preparePathLoop_spec hash _ loc _ known []
    ⟨pathSegments tokens, if data then bytes "@" else [], 0, 0⟩ holds rfl size
  rw [placedTokens_token, ← holds.first] at outcome
  change (misplaced false tokens = true ∧ _) ∨ (misplaced false tokens = false ∧ _) at outcome
  rw [← Bool.not_eq_true, misplaced_iff] at outcome
  unfold preparePath
  rcases outcome with ⟨wrong, error, ran⟩ | ⟨right, walked, ran, prepared⟩
  · rw [ran]
    exact ⟨iff_of_true ⟨error, rfl⟩ wrong, fun right => absurd wrong right⟩
  · rw [ran]
    refine ⟨iff_of_false nofun right, fun _ => ⟨_, _, rfl, ?_, prepared.parts, ?_, ?_, ?_, rfl, rfl⟩⟩
    · refine prepared.depth.trans ?_
      conv_rhs => rw [← placedTokens_token tokens, List.countP_map]
      exact Nat.zero_add _
    · rw [List.nil_append, List.map_map]
      exact kept_nodes tokens
    · change (walked.parts.toList.filterMap _) = _
      rw [prepared.parts.toList, List.nil_append, List.map_map]
      exact kept_parts tokens
    · refine prepared.original.trans ?_
      conv_rhs => rw [← placedTokens_token tokens, List.map_map]
      rfl

end HandlebarsC.Parser
