import HandlebarsC.Vm.Iteration
import HandlebarsC.Vm.Lookup
import HandlebarsC.Vm.Wrapped

/-!
The context of a partial: `merge_hash`, and the map that it stands for.
-/

namespace HandlebarsC

open Effect

namespace StrMap

variable {α β : Type} {hash : StringHash}

end StrMap

namespace Exec

variable {μ κ : Type} {hash : StringHash} {env : Env μ κ}

/-- The entries of a context that is a map, or of the empty one, but for where values are. -/
def shownEntries (hash : StringHash) : Value μ → Option (StrMap (Value μ))
  | .null => some []
  | .map _ entries => some (entries.map fun entry => (entry.1, entry.2.plain hash))
  | .user _ (.object members) =>
    some (members.map fun entry => (entry.1, entry.2.native hash))
  | _ => none

/-- The keys of a native map differ, as `handlebars_map_add` sees to. -/
def KeysApart (hash : StringHash) : Value μ → Prop
  | .map _ entries => StrMap.Apart hash entries
  | _ => True

/-- The entry that an iterator shows at a step. -/
def Visit.entry (visit : Visit μ) : Str × Value μ := (visit.key.getD [], visit.cur)

/-- The entries that an iterator shows of a JSON object, after a cell that shows `stale`. -/
def staleEntries (hash : StringHash) (stale : Value μ) (members : List (Str × Json)) :
    StrMap (Value μ) :=
  (shownMembers hash stale members).map Visit.entry

/-- The key of each `null` that comes behind something else is covered. -/
def NullsCovered (covered : Str → Bool) (behind : Bool) : List (Str × Json) → Prop
  | [] => True
  | (key, item) :: rest =>
    (isJsonNull item = true → behind = true → covered key = true) ∧
      NullsCovered covered (behind || !isJsonNull item) rest

/-- The arguments have a key. -/
def isArgument (hash : StringHash) (args : StrMap (Value μ)) (key : Str) : Bool :=
  (StrMap.find hash args key).isSome

/-- When a context takes arguments that there are: it is null, or a map that has entries. Its
iterator must show them as they are, and no map may be in iteration. -/
def Takes (hash : StringHash) (inIteration : List Nat) (hashAddr : Nat)
    (args : StrMap (Value μ)) : Value μ → Prop
  | .map addr entries => entries ≠ [] ∧ addr ∉ inIteration ∧ hashAddr ∉ inIteration
  | .user _ (.object members) =>
    members ≠ [] ∧ hashAddr ∉ inIteration ∧ StrMap.Apart hash members ∧
      NullsCovered (isArgument hash args) false members
  | _ => True

section Copies

variable {platform : Platform}

theorem foldlM_copyEntry (entries into : List (Str × Value μ)) (index : Nat) :
    ((entries.zipIdx index).foldlM
      (fun into visit => copyEntry hash into visit.2 visit.1) into : Exec μ κ _) =
      pure (StrMap.updateAll hash into entries) := by
  induction entries generalizing index into with
  | nil => rfl
  | cons entry rest ih =>
    rw [List.zipIdx_cons, List.foldlM_cons]
    exact ih (StrMap.update hash into entry.1 entry.2) (index + 1)

/-- The copy of a map that is not being iterated. -/
theorem copyMap_ran {addr : Nat} {entries : List (Str × Value μ)} {machine : Machine μ κ}
    (present : entries ≠ []) (free : addr ∉ machine.vm.inIteration)
    (into : List (Str × Value μ)) :
    copyEntries platform (.map addr entries) into machine =
      (.ok (StrMap.updateAll platform.hash into entries) machine, []) := by
  obtain ⟨first, rest, rfl⟩ := List.exists_cons_of_ne_nil present
  have closed : machine.vm.inIteration.contains addr = false := by simpa using free
  rw [copyEntries_eq]
  unfold foreachEntry
  rw [Proc.bind_ran (begin_open closed), foldlM_copyEntry, pure_bind]
  change (Outcome.ok _ { machine with vm := { machine.vm with
    inIteration := (addr :: machine.vm.inIteration).erase addr } }, []) = _
  rw [List.erase_cons_head]

end Copies

section Shown

variable {args : StrMap (Value μ)} {members : List (Str × Json)}

end Shown

section Makes

variable {addr hashAddr : Nat} {entries args : StrMap (Value μ)} {members : List (Str × Json)}
  {machine after : Machine μ κ} {input given : Value μ}

end Makes

section Call

end Call

end Exec

end HandlebarsC
