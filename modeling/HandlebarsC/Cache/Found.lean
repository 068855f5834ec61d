import HandlebarsC.Cache.MmapCounts
import HandlebarsC.Cache.Simple

/-!
What the simple and the mmap cache promise about a module between the find that
returned it and its release.
-/

namespace HandlebarsC

open Transition

namespace Simple

/-- One operation as a relation between worlds. -/
def Step (env : Env) (world : World) (operation : Operation) (next : World) : Prop :=
  step env world operation = some next

/-- Every module in use is still where it was found, unchanged, and the map is there. -/
structure Kept (world : World) : Prop where
  held : ∀ found ∈ world.held, world.cache.heap found.1 = some found.2
  mapped : world.lost = false

end Simple

namespace Mmap

/-- Every module in use is still where it was found, with no byte written over, and
counted; and no reset takes effect meanwhile. -/
structure Kept (world : World) : Prop where
  held : ∀ found ∈ world.held, Holds world.cache found.1 (.module found.2)
  counted : world.cache.refcount = world.held.length
  resets : world.held ≠ [] → cacheReset world.cache = world.cache

end Mmap

/-- In every run of the simple cache in which no collection reaches a module in use
(and none is found twice in different seconds) and no stored key is added to a map that is due
for a rehash, and in every run of the mmap cache in which no find meets a stale module, the
modules in use are kept. -/
theorem found_modules_kept (env : Simple.Env) (heap : Nat → Option Module) (maxAge : ℚ)
    (maxSize maxEntries : UInt64) (hash : StringHash) (data dataSize : Nat) (tableCount : UInt32)
    (simpleRun : Run (Guarded (Simple.Spared env) (Simple.Step env))
      ⟨Simple.openCache heap maxAge maxSize maxEntries, [], false⟩ simpleOperations simpleWorld)
    (mmapRun : Run (Guarded (Mmap.Calm hash) (Mmap.Step hash))
      ⟨Mmap.openCache data dataSize tableCount maxAge, [], []⟩ mmapOperations mmapWorld) :
    Simple.Kept simpleWorld ∧ Mmap.Kept mmapWorld := by
  constructor
  · have inv : Simple.Inv env simpleWorld ∧ simpleWorld.lost = false := by
      apply simpleRun.invariant (fun world => Simple.Inv env world ∧ world.lost = false) ?_
        ⟨Simple.inv_openCache env heap maxAge maxSize maxEntries, rfl⟩
      rintro state operation after ⟨inv, mapped⟩ ⟨⟨untouched, admitted⟩, taken⟩
      exact ⟨inv.step untouched taken, Simple.mapped_step mapped admitted taken⟩
    exact ⟨inv.1.kept, inv.2⟩
  · have inv : Mmap.Inv hash mmapWorld := by
      apply mmapRun.invariant (Mmap.Inv hash) ?_
        (Mmap.inv_openCache hash data dataSize tableCount maxAge)
      intro state operation after inv taken
      exact inv.step taken.1 taken.2
    exact ⟨inv.held, inv.counted, Mmap.cacheReset_held inv⟩

namespace Simple

def sortingEnv : Env where
  hash := fun _ => 1
  qsort := fun compare map => map.insertionSort fun left right => compare left right ≤ 0
  qsort_perm := fun _ map => List.perm_insertionSort _ map

/-- A cache that is collected once it holds more than one module. -/
def oneEntry : World :=
  ⟨openCache (fun _ => none) (-1) 0 1, [], false⟩

/-- Of two modules, the collection in front of a third takes the one that is not in use. -/
def nested : List Operation :=
  [.add (bytes "a") Mmap.freshModule 1 0 false, .add (bytes "bb") Mmap.freshModule 2 1 false,
    .find (bytes "bb") 2, .add (bytes "ccc") Mmap.freshModule 3 3 true]

theorem spared_run : ∃ world, Run (Guarded (Spared sortingEnv) (Step sortingEnv)) oneEntry nested
    world ∧ world.cache.map = [(bytes "bb", 2), (bytes "ccc", 3)] ∧
      world.held.map Prod.fst = [2] := by
  refine ⟨_, .cons ⟨⟨?_, ?_⟩, rfl⟩ (.cons ⟨⟨?_, ?_⟩, rfl⟩ (.cons ⟨⟨?_, trivial⟩, rfl⟩
    (.cons ⟨⟨?_, ?_⟩, rfl⟩ (.nil _)))), rfl, rfl⟩
  · intro full
    cases full
  · intro due
    cases due
  · intro full
    cases full
  · intro due
    cases due
  · intro ptr module found used
    cases used
  · intro full entry member
    cases List.mem_singleton.mp member
    rfl
  · intro due cache collected
    cases collected
    rfl

end Simple

theorem Mmap.calm_run : ∃ world, Run (Guarded (Mmap.Calm fun _ => 1) (Mmap.Step fun _ => 1))
    ⟨Mmap.openCache 4096 1024 4 (-1), [], []⟩
    [.add (bytes "a") Mmap.freshModule, .find (bytes "a") 5, .reset] world :=
  ⟨_, .cons ⟨trivial, rfl⟩ (.cons ⟨rfl, rfl⟩ (.cons ⟨trivial, rfl⟩ (.nil _)))⟩

theorem found_modules_kept_runs : ∃ simpleWorld mmapWorld,
    Run (Guarded (Simple.Spared Simple.sortingEnv) (Simple.Step Simple.sortingEnv)) Simple.oneEntry
      Simple.nested simpleWorld ∧
    simpleWorld.cache.map = [(bytes "bb", 2), (bytes "ccc", 3)] ∧
    simpleWorld.held.map Prod.fst = [2] ∧
    Run (Guarded (Mmap.Calm fun _ => 1) (Mmap.Step fun _ => 1))
      ⟨Mmap.openCache 4096 1024 4 (-1), [], []⟩
      [.add (bytes "a") Mmap.freshModule, .find (bytes "a") 5, .reset] mmapWorld ∧
    Simple.Kept simpleWorld ∧ Mmap.Kept mmapWorld := by
  obtain ⟨simpleWorld, simpleRun, stored, held⟩ := Simple.spared_run
  obtain ⟨mmapWorld, mmapRun⟩ := Mmap.calm_run
  exact ⟨simpleWorld, mmapWorld, simpleRun, stored, held, mmapRun,
    found_modules_kept _ _ _ _ _ _ _ _ _ simpleRun mmapRun⟩

/-- Two modules are added while one is in use: the second add collects it. -/
theorem module_collected_in_use :
    ¬ ∀ (env : Simple.Env) (heap : Nat → Option Module) (maxAge : ℚ) (maxSize maxEntries : UInt64)
      (operations : List Simple.Operation) (world : Simple.World),
      Run (Simple.Step env) ⟨Simple.openCache heap maxAge maxSize maxEntries, [], false⟩ operations world →
        Simple.Kept world := by
  intro always
  have run : ∃ world, Run (Simple.Step Simple.sortingEnv) Simple.oneEntry
      [.add (bytes "a") Mmap.freshModule 1 0 false, .find (bytes "a") 0,
        .add (bytes "bb") Mmap.freshModule 2 1 false, .add (bytes "ccc") Mmap.freshModule 3 2 false]
      world ∧
        world.held = [(1, Mmap.freshModule)] ∧ world.cache.heap 1 = none :=
    ⟨_, .cons rfl (.cons rfl (.cons rfl (.cons rfl (.nil _)))), rfl, rfl⟩
  obtain ⟨world, run, held, freed⟩ := run
  have kept := (always _ _ _ _ _ _ _ run).held (1, Mmap.freshModule)
    (by rw [held]; exact List.mem_cons_self)
  rw [freed] at kept
  cases kept

end HandlebarsC
