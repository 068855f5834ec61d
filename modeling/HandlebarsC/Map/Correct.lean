import Mathlib.Data.List.Find
import Mathlib.Tactic.Tauto
import HandlebarsC.Foundation.OrderedMap
import HandlebarsC.Foundation.Run
import HandlebarsC.Map.Operations

/-!
Over every history of operations without iteration and compaction, a map behaves as a
finite map in the order of insertion.
-/

namespace HandlebarsC

namespace Map

variable {α β : Type} {hash : StringHash} {sortR : SortR α} {keys : Set Str} {map : Map α}
  {key : Str} {contents : OrderedMap Str α}

theorem lasting_iff : map.Lasting ↔ map.refcount = 255 ∨ map.needsRehash false = false := by
  unfold Lasting needsRehash
  simp only [Bool.and_eq_false_iff, Bool.not_eq_eq_eq_not, Bool.not_false, Bool.false_or,
    Bool.or_eq_false_iff, decide_eq_false_iff_not, beq_eq_false_iff_ne, not_lt, gt_iff_lt]
  tauto

theorem delref_eq_some_self : map.delref = some map ↔ map.refcount = 255 := by
  unfold delref
  constructor
  · intro same
    by_contra mortal
    rw [if_neg mortal] at same
    split at same
    · cases same
    · rename_i shared
      have less := congrArg refcount (Option.some.inj same)
      dsimp only at less
      omega
  · intro immortal
    rw [if_pos immortal]

/-- A call that throws leaves the map exactly if it is lasting. -/
theorem abandoned_eq_self_iff : map.abandoned = some map ↔ map.Lasting := by
  rw [lasting_iff, abandoned]
  cases map.needsRehash false with
  | false => simp
  | true => simpa using delref_eq_some_self

/-- What is left of a map differs from it by its references only. -/
theorem abandoned_counted {after : Map α} (left : map.abandoned = some after) :
    ∃ refcount, after = { map with refcount := refcount } := by
  unfold abandoned delref at left
  split at left
  · split at left
    · cases left
      exact ⟨_, rfl⟩
    · split at left
      · cases left
      · cases left
        exact ⟨_, rfl⟩
  · cases left
    exact ⟨_, rfl⟩

/-- A call on a map. -/
inductive Op (α β : Type) where
  | add (key : Str) (value : α)
  | update (key : Str) (value : α)
  | remove (key : Str)
  | find (key : Str)
  | rehash (force : Bool)
  | copyCtor (capacity : Nat)
  | sort (compare : Str × α → Str × α → Int)
  | sortArg (compare : Str × α → Str × α → β → Int) (arg : β)
  | addref
  | delref

/-- The map the caller has after the call. -/
def Op.apply (hash : StringHash) (sortR : SortR α) (map : Map α) : Op α β → MapResult (Map α)
  | .add key value => map.add hash key value
  | .update key value => map.update hash key value
  | .remove key => map.remove hash key
  | .find key => do
    let _ ← map.find hash key
    .ok map
  | .rehash force => map.rehash hash force
  | .copyCtor capacity => map.copyCtor hash capacity
  | .sort compare => map.sort hash sortR compare
  | .sortArg compare arg => map.sortArg hash sortR compare arg
  | .addref => .ok map.addref
  | .delref => match map.delref with
    | some map => .ok map
    | none => .error .crashed

/-- Keys are from a given set, copies get a table, and the last reference is kept. -/
def Op.Allowed (keys : Set Str) (map : Map α) : Op α β → Prop
  | .add key _ | .update key _ | .remove key | .find key => key ∈ keys
  | .copyCtor capacity => capacity ≤ maxCapacity
  | .delref => 1 < map.refcount
  | _ => True

/-- What is left at the caller's pointer by a call that throws. -/
def Op.leaves (map : Map α) : Op α β → Option (Map α)
  | .add _ _ | .update _ _ => map.abandoned
  | _ => some map

/-- A call through a pointer, which gives the caller a map, or throws and leaves what there is
then at the pointer. No call goes through the pointer to a map that was freed. -/
inductive Step (hash : StringHash) (sortR : SortR α) (keys : Set Str) :
    Option (Map α) → Op α β → Option (Map α) → Prop where
  | returned {map after : Map α} {op : Op α β} (allowed : op.Allowed keys map)
      (success : op.apply hash sortR map = .ok after) :
      Step hash sortR keys (some map) op (some after)
  | threw {map : Map α} {op : Op α β} {error : Error} (allowed : op.Allowed keys map)
      (failure : op.apply hash sortR map = .error (.threw error)) :
      Step hash sortR keys (some map) op (op.leaves map)

/-- A condition on the map at a pointer. -/
def AtPointer (guard : Map α → γ → Prop) (state : Option (Map α)) (call : γ) : Prop :=
  ∀ map ∈ state, guard map call

/-- A key that is there is only added to a map that outlives the refusal. -/
def Op.Careful (hash : StringHash) (map : Map α) (op : Op α β) : Prop :=
  map.count ≤ maxCount ∧
    match op with
    | .add key _ => ¬Absent hash map key → map.Lasting
    | _ => True

/-- No two keys have the same length and the same hash. -/
def CollisionFree (hash : StringHash) (keys : Set Str) : Prop :=
  ∀ left ∈ keys, ∀ right ∈ keys, stringEq hash left right = true → left = right

/-- A comparison that makes an order. -/
structure Orders {β : Type} (compare : β → β → Int) : Prop where
  symm : ∀ left right, compare left right ≤ 0 ↔ 0 ≤ compare right left
  trans : ∀ left middle right,
    compare left middle ≤ 0 → compare middle right ≤ 0 → compare left right ≤ 0

/-- What `sort_r` is relied on for. -/
structure Sorts (sortR : SortR α) : Prop where
  perm : ∀ compare row, (sortR compare row).Perm row
  sorted : ∀ compare row, Orders compare →
    (sortR compare row).Pairwise fun left right => compare left right ≤ 0

/-- The contents in the order of a comparison. -/
def Sorted (compare : Str × α → Str × α → Int) (before after : OrderedMap Str α) : Prop :=
  after.pairs.Perm before.pairs ∧
    (Orders compare → after.pairs.Pairwise fun left right => compare left right ≤ 0)

/-- What a call is for, on the contents. -/
def Op.Spec (op : Op α β) (before after : OrderedMap Str α) : Prop :=
  match op with
  | .add key value => after = before.add key value
  | .update key value => after = before.update key value
  | .remove key => after = before.erase key
  | .sort compare => Sorted compare before after
  | .sortArg compare arg => Sorted (fun left right => compare left right arg) before after
  | .find _ | .rehash _ | .copyCtor _ | .addref | .delref => after = before

/-- The value of a key after a call, from the value before. -/
def Op.valueAfter (key : Str) (before : Option α) : Op α β → Option α
  | .add added value => if added = key then some (before.getD value) else before
  | .update updated value => if updated = key then some value else before
  | .remove removed => if removed = key then none else before
  | _ => before

theorem Op.find_spec {op : Op α β} (spec : op.Spec before after) (key : Str) :
    after.find key = op.valueAfter key (before.find key) := by
  cases op with
  | add added value =>
    rw [spec, OrderedMap.find_add, valueAfter]
    split
    · rename_i same
      rw [same]
    · rfl
  | update updated value => rw [spec, OrderedMap.find_update, valueAfter]
  | remove removed => rw [spec, OrderedMap.find_erase, valueAfter]
  | sort compare => exact OrderedMap.find_congr spec.1
  | sortArg compare arg => exact OrderedMap.find_congr spec.1
  | find | rehash | copyCtor | addref | delref =>
    rw [spec]
    rfl

/-- A map in working order with the given contents. -/
structure Represents (hash : StringHash) (keys : Set Str) (map : Map α)
    (contents : OrderedMap Str α) : Prop where
  intact : Intact hash map
  pairs : map.pairs = contents.pairs
  known : ∀ key ∈ contents.keys, key ∈ keys

namespace Represents

theorem stringEq_eq (represents : Represents hash keys map contents)
    (free : CollisionFree hash keys) (known : key ∈ keys) (pair : Str × α)
    (member : pair ∈ contents.pairs) : stringEq hash pair.1 key = decide (pair.1 = key) := by
  by_cases same : pair.1 = key
  · rw [same, decide_eq_true rfl]
    exact stringEq_refl hash key
  · rw [decide_eq_false same, Bool.eq_false_iff]
    intro equal
    exact same (free _ (represents.known _ (List.mem_map_of_mem member)) _ known equal)

theorem absent_iff (represents : Represents hash keys map contents)
    (free : CollisionFree hash keys) (known : key ∈ keys) :
    Absent hash map key ↔ key ∉ contents.keys := by
  rw [absent_iff_pairs, represents.pairs]
  constructor
  · intro absent member
    obtain ⟨pair, inside, same⟩ := List.mem_map.mp member
    have different := absent pair inside
    rw [represents.stringEq_eq free known pair inside, decide_eq_false_iff_not] at different
    exact different same
  · intro absent pair inside
    rw [represents.stringEq_eq free known pair inside, decide_eq_false_iff_not]
    rintro rfl
    exact absent (List.mem_map_of_mem inside)

theorem find (represents : Represents hash keys map contents) (free : CollisionFree hash keys)
    (known : key ∈ keys) : map.find hash key = .ok (contents.find key) := by
  rw [represents.intact.valid.find_eq, represents.pairs, StrMap.find, OrderedMap.find]
  refine congrArg (fun found => Except.ok (Option.map Prod.snd found)) ?_
  refine List.find?_congr fun pair member => ?_
  exact represents.stringEq_eq free known pair member

theorem keys_add (represents : Represents hash keys map contents) (known : key ∈ keys)
    (value : α) :
    ∀ stored ∈ (contents.pairs ++ [(key, value)]).map Prod.fst, stored ∈ keys := by
  intro stored member
  rw [List.map_append, List.mem_append] at member
  rcases member with old | new
  · exact represents.known stored old
  · rw [List.mem_singleton.mp new]
    exact known

/-- Adding a key that is not there. -/
theorem add (represents : Represents hash keys map contents) (free : CollisionFree hash keys)
    (small : map.count ≤ maxCount) (known : key ∈ keys) (absent : key ∉ contents.keys)
    (value : α) :
    ∃ after, map.add hash key value = .ok after ∧
      Represents hash keys after (contents.append key value absent) := by
  obtain ⟨after, added, intact, pairs⟩ := represents.intact.add_absent small
    ((represents.absent_iff free known).mpr absent) value
  rw [represents.pairs] at pairs
  exact ⟨after, added, intact, pairs, represents.keys_add known value⟩

theorem update (represents : Represents hash keys map contents) (free : CollisionFree hash keys)
    (small : map.count ≤ maxCount) (known : key ∈ keys) (value : α) :
    ∃ after, map.update hash key value = .ok after ∧
      Represents hash keys after (contents.update key value) := by
  unfold OrderedMap.update
  split
  · rename_i present
    obtain ⟨after, updated, intact, pairs⟩ := represents.intact.update_present small
      (mt (represents.absent_iff free known).mp (not_not.mpr present)) value
    refine ⟨after, updated, intact, ?_, ?_⟩
    · rw [pairs, represents.pairs]
      refine List.map_congr_left fun pair member => ?_
      rw [represents.stringEq_eq free known pair member]
      simp only [decide_eq_true_eq]
    · intro stored member
      refine represents.known stored ?_
      obtain ⟨pair, changed, rfl⟩ := List.mem_map.mp member
      obtain ⟨old, inside, rfl⟩ := List.mem_map.mp changed
      refine List.mem_map.mpr ⟨old, inside, ?_⟩
      split <;> rfl
  · rename_i absent
    obtain ⟨after, updated, intact, pairs⟩ := represents.intact.update_absent small
      ((represents.absent_iff free known).mpr absent) value
    rw [represents.pairs] at pairs
    exact ⟨after, updated, intact, pairs, represents.keys_add known value⟩

theorem remove (represents : Represents hash keys map contents) (free : CollisionFree hash keys)
    (small : map.count ≤ maxCount) (known : key ∈ keys) :
    ∃ after, map.remove hash key = .ok after ∧
      Represents hash keys after (contents.erase key) := by
  obtain ⟨after, removed, intact, pairs⟩ := represents.intact.remove small key
  refine ⟨after, removed, intact, ?_, ?_⟩
  · rw [pairs, represents.pairs]
    refine List.filter_congr fun pair member => ?_
    rw [represents.stringEq_eq free known pair member]
    simp
  · intro stored member
    obtain ⟨pair, kept, rfl⟩ := List.mem_map.mp member
    exact represents.known _ (List.mem_map_of_mem (List.mem_filter.mp kept).1)

theorem sort (represents : Represents hash keys map contents) (sorts : Sorts sortR)
    (small : map.count ≤ maxCount) (compare : Str × α → Str × α → Int) :
    ∃ after next, map.sortBy hash sortR compare = .ok after ∧ Sorted compare contents next ∧
      Represents hash keys after next := by
  obtain ⟨after, row, result, intact, same, entries⟩ :=
    represents.intact.sortBy small sorts.perm compare
  have permuted := sorts.perm (order compare) row
  have pairs : after.pairs.Perm contents.pairs := by
    rw [← represents.pairs, ← same, Map.pairs, entries]
    exact permuted.map _
  have distinct : (after.pairs.map Prod.fst).Nodup :=
    (pairs.map Prod.fst).nodup_iff.mpr contents.distinct
  refine ⟨after, ⟨after.pairs, distinct⟩, result, ⟨pairs, ?_⟩, intact, rfl, ?_⟩
  · intro orders
    change (List.map _ after.entries).Pairwise _
    rw [entries, List.pairwise_map]
    exact sorts.sorted (order compare) row
      ⟨fun _ _ => orders.symm _ _, fun _ _ _ => orders.trans _ _ _⟩
  · intro stored member
    exact represents.known stored ((pairs.map Prod.fst).mem_iff.mp member)

/-- The count of references is no part of the contents. -/
theorem withRefcount (represents : Represents hash keys map contents) (refcount : Nat) :
    Represents hash keys { map with refcount := refcount } contents := by
  obtain ⟨⟨⟨inside, counted, pointed, live, reached, distinct⟩, sized, inIteration, used⟩, pairs,
    known⟩ := represents
  exact ⟨⟨⟨inside, counted, pointed, live, reached, distinct⟩, sized, inIteration, used⟩, pairs,
    known⟩

/-- Every call does what it is for, but that adding a key that is there throws. -/
theorem apply (represents : Represents hash keys map contents) (free : CollisionFree hash keys)
    (sorts : Sorts sortR) (small : map.count ≤ maxCount) (op : Op α β)
    (allowed : op.Allowed keys map) :
    (∃ after next, op.apply hash sortR map = .ok after ∧ op.Spec contents next ∧
      Represents hash keys after next) ∨
    ∃ key value, op = .add key value ∧ key ∈ contents.keys ∧ op.apply hash sortR map =
      .error (.threw ⟨.error, bytes "Failed to add to hash table", LocInfo.zero⟩) := by
  cases op with
  | add key value =>
    by_cases present : key ∈ contents.keys
    · exact .inr ⟨key, value, rfl, present, represents.intact.add_present small
        (mt (represents.absent_iff free allowed).mp (not_not.mpr present)) value⟩
    · left
      obtain ⟨after, added, result⟩ := represents.add free small allowed present value
      refine ⟨after, _, added, ?_, result⟩
      rw [Op.Spec, OrderedMap.add, dif_neg present]
  | update key value =>
    obtain ⟨after, updated, result⟩ := represents.update free small allowed value
    exact .inl ⟨after, _, updated, rfl, result⟩
  | remove key =>
    obtain ⟨after, removed, result⟩ := represents.remove free small allowed
    exact .inl ⟨after, _, removed, rfl, result⟩
  | find key =>
    refine .inl ⟨map, contents, ?_, rfl, represents⟩
    rw [Op.apply, represents.find free allowed]
    rfl
  | rehash force =>
    obtain ⟨after, rehashed, intact, pairs, -, -⟩ := represents.intact.rehash small force
    exact .inl ⟨after, contents, rehashed, rfl, intact, pairs.trans represents.pairs,
      represents.known⟩
  | copyCtor capacity =>
    obtain ⟨after, copied, intact, pairs⟩ := represents.intact.copyCtor allowed
    exact .inl ⟨after, contents, copied, rfl, intact, pairs.trans represents.pairs,
      represents.known⟩
  | sort compare =>
    obtain ⟨after, next, sorted, spec, result⟩ := represents.sort sorts small compare
    exact .inl ⟨after, next, sorted, spec, result⟩
  | sortArg compare arg =>
    obtain ⟨after, next, sorted, spec, result⟩ :=
      represents.sort sorts small fun left right => compare left right arg
    exact .inl ⟨after, next, sorted, spec, result⟩
  | addref =>
    refine .inl ⟨_, contents, rfl, rfl, ?_⟩
    unfold addref
    split
    · exact represents.withRefcount _
    · exact represents
  | delref =>
    left
    have several : ¬map.refcount ≤ 1 := Nat.not_le.mpr allowed
    rw [Op.apply, delref, if_neg several]
    by_cases stuck : map.refcount = 255
    · rw [if_pos stuck]
      exact ⟨map, contents, rfl, rfl, represents⟩
    · rw [if_neg stuck]
      exact ⟨_, contents, rfl, rfl, represents.withRefcount _⟩

theorem step (represents : Represents hash keys map contents) (free : CollisionFree hash keys)
    (sorts : Sorts sortR) {op : Op α β} {state : Option (Map α)}
    (step : Transition.Guarded (AtPointer (Op.Careful hash)) (Step hash sortR keys) (some map) op
      state) :
    ∃ after next, state = some after ∧ op.Spec contents next ∧
      Represents hash keys after next := by
  obtain ⟨careful, taken⟩ := step
  obtain ⟨small, lasts⟩ := careful map rfl
  cases taken with
  | returned allowed success =>
    rcases represents.apply free sorts small op allowed with
      ⟨result, next, applied, spec, representsNext⟩ | ⟨key, value, -, -, failed⟩
    · rw [success] at applied
      cases applied
      exact ⟨_, next, rfl, spec, representsNext⟩
    · rw [success] at failed
      cases failed
  | threw allowed failure =>
    rcases represents.apply free sorts small op allowed with
      ⟨result, next, applied, -, -⟩ | ⟨key, value, rfl, present, -⟩
    · rw [failure] at applied
      cases applied
    · have lasting : map.Lasting :=
        lasts (mt (represents.absent_iff free allowed).mp (not_not.mpr present))
      refine ⟨map, contents, abandoned_eq_self_iff.mpr lasting, ?_, represents⟩
      rw [Op.Spec, OrderedMap.add, dif_pos present]

theorem run (represents : Represents hash keys map contents) (free : CollisionFree hash keys)
    (sorts : Sorts sortR) {ops : List (Op α β)} {state : Option (Map α)}
    (run : Transition.Run (Transition.Guarded (AtPointer (Op.Careful hash)) (Step hash sortR keys))
      (some map) ops state) :
    ∃ last next, state = some last ∧
      Transition.Run (fun before (op : Op α β) after => op.Spec before after) contents ops next ∧
      Represents hash keys last next := by
  generalize start : some map = first at run
  induction run generalizing map contents with
  | nil state =>
    subst start
    exact ⟨map, contents, rfl, .nil contents, represents⟩
  | cons first rest ih =>
    subst start
    obtain ⟨middle, between, same, spec, representsMiddle⟩ := represents.step free sorts first
    obtain ⟨last, next, ended, ran, result⟩ := ih representsMiddle same.symm
    exact ⟨last, next, ended, .cons spec ran, result⟩

end Represents

/-- An empty vector for one entry, and one that the entry fills. -/
def single : Option Nat → Map Nat
  | none => ⟨0, 0, false, 0, [none], List.replicate 5 .null⟩
  | some value => ⟨1, 1, false, 0, [some ⟨bytes "a", value, 0⟩], .entry 0 :: List.replicate 4 .null⟩

end Map

end HandlebarsC
