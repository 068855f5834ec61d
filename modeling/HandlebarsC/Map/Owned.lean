import HandlebarsC.Map.Shared

/-!
Cells that hold maps: as long as each of them is counted, what they hold stays allocated.
-/

namespace HandlebarsC

open Effect

namespace Map

variable {α : Type}

/-- The map with another count of references. -/
def counted (map : Map α) (refcount : Nat) : Map α := { map with refcount := refcount }

@[simp] theorem counted_counted (map : Map α) (first second : Nat) :
    (map.counted first).counted second = map.counted second := rfl

@[simp] theorem counted_refcount (map : Map α) (refcount : Nat) :
    (map.counted refcount).refcount = refcount := rfl

@[simp] theorem counted_values (map : Map α) (refcount : Nat) :
    (map.counted refcount).values = map.values := rfl

@[simp] theorem counted_self (map : Map α) : map.counted map.refcount = map := rfl

theorem addref_counted (map : Map α) {refcount : Nat} (few : refcount < 255) :
    (map.counted refcount).addref = map.counted (refcount + 1) := by
  unfold addref
  rw [counted_refcount, if_pos few]
  rfl

theorem delref_counted (map : Map α) {refcount : Nat} (shared : 0 < refcount) (few : refcount < 254) :
    (map.counted (refcount + 1)).delref = some (map.counted refcount) := by
  unfold delref
  rw [counted_refcount, if_neg (by omega), if_neg (by omega)]
  rfl

end Map

namespace Counted

variable {α : Type}

/-- How many of the cells hold the map at an address. -/
def holders (held : α → Option Nat) (cells : List α) (addr : Nat) : Nat :=
  cells.countP fun cell => held cell == some addr

section Holders

variable {held : α → Option Nat} {cells : List α} {cell : α} {addr : Nat}

@[simp] theorem holders_nil : holders held [] addr = 0 := rfl

theorem holders_cons_self (same : held cell = some addr) :
    holders held (cell :: cells) addr = holders held cells addr + 1 :=
  List.countP_cons_of_pos (by simp [same])

theorem holders_cons_other (different : held cell ≠ some addr) :
    holders held (cell :: cells) addr = holders held cells addr :=
  List.countP_cons_of_neg (by simp [different])

theorem holders_eq_zero :
    holders held cells addr = 0 ↔ ∀ cell ∈ cells, held cell ≠ some addr := by
  simp [holders]

theorem holders_pos : 0 < holders held cells addr ↔ ∃ cell ∈ cells, held cell = some addr := by
  simp [holders]

theorem holders_perm {other : List α} (same : cells.Perm other) :
    holders held cells addr = holders held other addr := same.countP_eq _

end Holders

/-- A count of references that covers the cells which hold the map; at 255 it stays. -/
def Covers (cells refcount : Nat) : Prop := cells ≤ refcount ∨ 255 ≤ refcount

theorem Covers.addref {map : Map α} (covers : Covers cells map.refcount) :
    Covers (cells + 1) map.addref.refcount := by
  unfold Covers Map.addref at *
  split
  · dsimp only
    omega
  · omega

theorem Covers.delref {map : Map α} (covers : Covers (cells + 1) map.refcount) (shared : 0 < cells) :
    ∃ kept, map.delref = some kept ∧ kept = map.counted kept.refcount ∧
      Covers cells kept.refcount := by
  unfold Covers Map.delref at *
  split
  · exact ⟨map, rfl, rfl, by omega⟩
  · rw [if_neg (by omega)]
    refine ⟨_, rfl, rfl, ?_⟩
    dsimp only
    omega

/-- The same maps at all addresses but one, whatever their counts. -/
structure SameBut (addr : Nat) (store after : Store α) : Prop where
  length : after.maps.length = store.maps.length
  others : ∀ other ≠ addr,
    (after.live other).map (Map.counted · 0) = (store.live other).map (Map.counted · 0)

namespace SameBut

variable {addr other : Nat} {store middle after : Store α}

theorem refl (addr : Nat) (store : Store α) : SameBut addr store store := ⟨rfl, fun _ _ => rfl⟩

theorem trans (first : SameBut addr store middle) (second : SameBut addr middle after) :
    SameBut addr store after :=
  ⟨second.length.trans first.length,
    fun other different => (second.others other different).trans (first.others other different)⟩

/-- What is live at another address stays live, with the same entries. -/
theorem live (same : SameBut addr store after) (different : other ≠ addr)
    (live : store.live other = some map) :
    ∃ refcount, after.live other = some (map.counted refcount) := by
  have uncounted := same.others other different
  rw [live] at uncounted
  obtain ⟨found, there, equal⟩ := Option.map_eq_some_iff.mp uncounted
  refine ⟨found.refcount, there.trans (congrArg some ?_)⟩
  change found = (map.counted 0).counted found.refcount
  rw [← show found.counted 0 = map.counted 0 from equal]
  rfl

theorem symm (same : SameBut addr store after) : SameBut addr after store :=
  ⟨same.length.symm, fun other different => (same.others other different).symm⟩

/-- A map with another count, or anything at the one address. -/
theorem put (recounted : other ≠ addr → ∃ map refcount, store.live other = some map ∧
    slot = some (map.counted refcount)) : SameBut addr store (store.put other slot) := by
  refine ⟨Store.length_put slot, fun place different => ?_⟩
  by_cases here : place = other
  · subst here
    obtain ⟨map, refcount, live, rfl⟩ := recounted different
    rw [Store.live_put_self (Store.lt_of_live live), live]
    rfl
  · rw [Store.live_put_other here]

end SameBut

section Owned

variable {held : α → Option Nat} {addr : Nat} {map : Map α} {store : Store α} {cells : List α}
  {value : α}

/-- The count of one map is exactly how many of the cells hold it; the counts of the other maps
that they hold cover them. -/
structure Owned (held : α → Option Nat) (addr : Nat) (map : Map α) (store : Store α)
    (cells : List α) : Prop where
  own : store.live addr = some (map.counted (holders held cells addr))
  others : ∀ other ≠ addr, 0 < holders held cells other →
    ∃ found, store.live other = some found ∧ Covers (holders held cells other) found.refcount

theorem Owned.perm {other : List α} (owned : Owned held addr map store cells)
    (same : cells.Perm other) : Owned held addr map store other := by
  obtain ⟨own, others⟩ := owned
  constructor
  · rw [← holders_perm same]
    exact own
  · intro place different
    rw [← holders_perm same]
    exact others place different

/-- The stacks of a store have no part in what it owns. -/
theorem Owned.of_maps {other : Store α} (owned : Owned held addr map store cells)
    (same : other.maps = store.maps) : Owned held addr map other cells := by
  have live : ∀ place, other.live place = store.live place := fun place => by
    rw [Store.live, Store.live, same]
  exact ⟨by rw [live]; exact owned.own, fun place => by rw [live]; exact owned.others place⟩

/-- A step that leaves the stacks, and the maps but one up to their counts. -/
structure Quietly (addr : Nat) (store after : Store α) : Prop extends SameBut addr store after where
  stack : after.stack = store.stack
  hashStack : after.hashStack = store.hashStack

theorem Quietly.trans {middle after : Store α} (first : Quietly addr store middle)
    (second : Quietly addr middle after) : Quietly addr store after :=
  ⟨first.toSameBut.trans second.toSameBut, second.stack.trans first.stack,
    second.hashStack.trans first.hashStack⟩

/-- What cells hold that are counted is there. -/
theorem Owned.there (owned : Owned held addr map store cells) (member : value ∈ cells) :
    ∀ other, held value = some other → ∃ found, store.live other = some found := by
  intro other holds
  by_cases here : other = addr
  · subst here
    exact ⟨_, owned.own⟩
  · obtain ⟨found, live, -⟩ := owned.others other here (holders_pos.mpr ⟨value, member, holds⟩)
    exact ⟨found, live⟩

theorem hold_none (noMap : held value = none) : hold held value = (pure () : Counted α Unit) := by
  unfold hold
  rw [noMap]

theorem hold_some (holds : held value = some other) : hold held value = addref other := by
  unfold hold
  rw [holds]

theorem drop_none (noMap : held value = none) : drop held value = (pure () : Counted α Unit) := by
  unfold drop dropWith
  rw [noMap]

theorem drop_some (holds : held value = some other) : drop held value = delref held other := by
  unfold drop dropWith
  rw [holds]

/-- A map with more references only loses one. -/
theorem delref_shared {kept : Map α} (live : store.live addr = some map)
    (shared : map.delref = some kept) :
    delref held addr store = (.ok () (store.put addr (some kept)), []) := by
  unfold delref
  rw [Proc.bind_read, delrefWithin, Proc.bind_ran (load_live live), shared]
  rfl

/-- One more cell that holds what is there. -/
theorem hold_yields (owned : Owned held addr map store cells)
    (there : ∀ other, held value = some other → ∃ found, store.live other = some found)
    (few : holders held cells addr < 255) :
    (hold held value).Yields (fun _ after =>
      Owned held addr map after (value :: cells) ∧ Quietly addr store after) store := by
  cases holds : held value with
  | none =>
    have same : ∀ place, holders held (value :: cells) place = holders held cells place :=
      fun place => holders_cons_other (by rw [holds]; nofun)
    rw [hold_none holds]
    refine Proc.yields_pure ⟨⟨?_, fun other different => ?_⟩, SameBut.refl addr store, rfl, rfl⟩
    · rw [same]
      exact owned.own
    · rw [same]
      exact owned.others other different
  | some target =>
    obtain ⟨found, live⟩ := there target holds
    have bound := Store.lt_of_live live
    have more : holders held (value :: cells) target = holders held cells target + 1 :=
      holders_cons_self holds
    have same : ∀ place ≠ target, holders held (value :: cells) place = holders held cells place := by
      intro place different
      refine holders_cons_other ?_
      rw [holds]
      exact fun equal => different (Option.some.inj equal).symm
    rw [hold_some holds]
    refine ⟨(), _, addref_live live, ⟨?_, fun other different occurs => ?_⟩, SameBut.put ?_, rfl, rfl⟩
    · by_cases here : addr = target
      · subst here
        have equal := owned.own
        rw [live] at equal
        cases equal
        rw [Store.live_put_self bound, more, Map.addref_counted map few]
      · rw [Store.live_put_other here, same addr here]
        exact owned.own
    · by_cases here : other = target
      · subst here
        rw [Store.live_put_self bound, more]
        refine ⟨found.addref, rfl, Covers.addref ?_⟩
        by_cases first : holders held cells other = 0
        · exact .inl (by omega)
        · obtain ⟨known, liveToo, covers⟩ := owned.others other different (Nat.pos_of_ne_zero first)
          rw [live] at liveToo
          cases liveToo
          exact covers
      · rw [Store.live_put_other here, same other here]
        rw [same other here] at occurs
        exact owned.others other different occurs
    · intro _
      refine ⟨found, found.addref.refcount, live, ?_⟩
      unfold Map.addref
      split <;> rfl

/-- One cell less, of a map that others still hold. -/
theorem drop_yields (owned : Owned held addr map store (value :: cells))
    (shared : ∀ other, held value = some other → 0 < holders held cells other)
    (few : holders held cells addr < 254) :
    (drop held value).Yields (fun _ after =>
      Owned held addr map after cells ∧ Quietly addr store after) store := by
  cases holds : held value with
  | none =>
    have same : ∀ place, holders held (value :: cells) place = holders held cells place :=
      fun place => holders_cons_other (by rw [holds]; nofun)
    rw [drop_none holds]
    refine Proc.yields_pure ⟨⟨?_, fun other different => ?_⟩, SameBut.refl addr store, rfl, rfl⟩
    · rw [← same]
      exact owned.own
    · rw [← same]
      exact owned.others other different
  | some target =>
    have rest := shared target holds
    have more : holders held (value :: cells) target = holders held cells target + 1 :=
      holders_cons_self holds
    have same : ∀ place ≠ target, holders held (value :: cells) place = holders held cells place := by
      intro place different
      refine holders_cons_other ?_
      rw [holds]
      exact fun equal => different (Option.some.inj equal).symm
    obtain ⟨found, kept, live, less, recounted, covers⟩ : ∃ found kept,
        store.live target = some found ∧ found.delref = some kept ∧
          kept = found.counted kept.refcount ∧
          (if target = addr then kept = map.counted (holders held cells addr)
            else Covers (holders held cells target) kept.refcount) := by
      by_cases here : target = addr
      · subst here
        refine ⟨_, _, owned.own, ?_, ?_, by rw [if_pos rfl]⟩
        · rw [more]
          exact Map.delref_counted map rest few
        · rfl
      · obtain ⟨found, live, covers⟩ := owned.others target here (by omega)
        rw [more] at covers
        obtain ⟨kept, less, recounted, later⟩ := covers.delref rest
        exact ⟨found, kept, live, less, recounted, by rw [if_neg here]; exact later⟩
    have bound := Store.lt_of_live live
    rw [drop_some holds]
    refine ⟨(), _, delref_shared live less, ⟨?_, fun other different occurs => ?_⟩, SameBut.put ?_,
      rfl, rfl⟩
    · by_cases here : target = addr
      · rw [if_pos here] at covers
        rw [← here, Store.live_put_self bound, covers, here]
      · rw [Store.live_put_other (Ne.symm here), ← same addr (Ne.symm here)]
        exact owned.own
    · by_cases here : other = target
      · subst here
        rw [if_neg different] at covers
        exact ⟨kept, Store.live_put_self bound _, covers⟩
      · rw [Store.live_put_other here, ← same other here]
        rw [← same other here] at occurs
        exact owned.others other different occurs
    · exact fun _ => ⟨found, kept.refcount, live, congrArg some recounted⟩

end Owned

section Freed

variable (held : α → Option Nat) (hash : StringHash) {addr : Nat} {store : Store α}

/-- The map at an address was freed. -/
def Freed (addr : Nat) (store : Store α) : Prop :=
  addr < store.maps.length ∧ store.live addr = none

/-- Addresses are not used again: what is freed stays freed. -/
structure Later (store after : Store α) : Prop where
  grows : store.maps.length ≤ after.maps.length
  freed : ∀ addr, Freed addr store → Freed addr after

def heapFrame : Frame (Store α) Nat where
  ready _ := True
  quiet _ := True
  logs _ _ := True
  stays := Later
  leaves _ _ := True
  stays_refl _ := ⟨Nat.le_refl _, fun _ freed => freed⟩
  stays_trans first last :=
    ⟨first.grows.trans last.grows, fun addr freed => last.freed addr (first.freed addr freed)⟩
  ready_after _ _ := trivial
  logs_after _ _ := trivial
  leaves_refl _ := trivial
  leaves_after _ _ := trivial

theorem freed_put_none (bound : addr < store.maps.length) : Freed addr (store.put addr none) :=
  ⟨by rw [Store.length_put]; exact bound, Store.live_put_self bound none⟩

/-- A map can be freed, and one that was loaded can be written back. -/
theorem keeps_put {other : Nat} {slot : Option (Map α)}
    (live : slot = none ∨ ∃ map, store.live other = some map) :
    heapFrame.Keeps (Proc.write fun store => store.put other slot) store := by
  intro _
  refine Proc.logs_write ⟨Nat.le_of_eq (Store.length_put slot).symm, fun addr freed => ?_⟩
  by_cases here : addr = other
  · subst here
    rcases live with rfl | ⟨map, live⟩
    · exact freed_put_none freed.1
    · rw [freed.2] at live
      cases live
  · exact ⟨by rw [Store.length_put]; exact freed.1, by rw [Store.live_put_other here]; exact freed.2⟩

theorem keeps_load {other : Nat} {next : Map α → Counted α β}
    (rest : ∀ map, store.live other = some map → heapFrame.Keeps (next map) store) :
    heapFrame.Keeps (load other >>= next) store := by
  cases live : store.live other with
  | some map =>
    intro ready
    unfold Proc.Logs
    rw [Proc.bind_ran (load_live live)]
    exact rest map live ready
  | none =>
    intro _ _
    change _ ∧ (Proc.andThen (load other) next store).1.Meets _ _
    unfold Proc.andThen
    rw [load_freed live]
    exact ⟨fun _ _ => trivial, trivial⟩

theorem keeps_lift (result : MapResult γ) {next : γ → Counted α β}
    (rest : ∀ value, heapFrame.Keeps (next value) store) :
    heapFrame.Keeps (lift result >>= next) store := by
  intro ready
  apply Proc.logs_bind
  unfold lift
  split
  · exact Proc.logs_pure (rest _ ready)
  · exact Proc.logs_throw trivial
  · exact Proc.logs_abort trivial

theorem keeps_addref (other : Nat) : heapFrame.Keeps (addref other) store :=
  keeps_load fun _ live => keeps_put (.inr ⟨_, live⟩)

theorem keeps_hold (value : α) : heapFrame.Keeps (hold held value) store := by
  unfold hold
  split
  · exact keeps_addref _
  · exact Frame.keeps_pure _

theorem keeps_dropAllWith (delref : Nat → Counted α Unit)
    (keeps : ∀ other store, heapFrame.Keeps (delref other) store) (values : List α) :
    heapFrame.Keeps (dropAllWith held delref values) store := by
  induction values generalizing store with
  | nil => exact Frame.keeps_pure _
  | cons value rest ih =>
    refine Frame.Keeps.bind ?_ fun _ _ _ => ih
    unfold dropWith
    split
    · exact keeps _ store
    · exact Frame.keeps_pure _

theorem keeps_delrefWithin (depth : Nat) (other : Nat) (store : Store α) :
    heapFrame.Keeps (delrefWithin held depth other) store := by
  induction depth generalizing other store with
  | zero => exact Frame.keeps_exhaust
  | succ depth ih =>
    refine keeps_load fun map live => ?_
    split
    · exact keeps_put (.inr ⟨_, live⟩)
    · refine Frame.Keeps.bind (keeps_put (.inr ⟨_, live⟩)) fun _ _ _ => ?_
      refine Frame.Keeps.bind (keeps_dropAllWith held _ ih _) fun _ _ _ => ?_
      exact keeps_put (.inl rfl)

theorem keeps_delref (other : Nat) : heapFrame.Keeps (delref held other) store :=
  Frame.Keeps.read (keeps_delrefWithin held _ other store)

theorem keeps_drop (value : α) : heapFrame.Keeps (drop held value) store := by
  unfold drop dropWith
  split
  · exact keeps_delref held _
  · exact Frame.keeps_pure _

theorem keeps_insertAt (other : Nat) (key : Str) (value : α) (offset : Nat) :
    heapFrame.Keeps (insertAt held other key value offset) store := by
  refine keeps_load fun map live => keeps_lift _ fun after => ?_
  exact Frame.Keeps.bind (keeps_put (.inr ⟨_, live⟩)) fun _ _ _ => keeps_hold held value

theorem keeps_assignAt (other index : Nat) (value : α) :
    heapFrame.Keeps (assignAt held other index value) store := by
  refine keeps_load fun map live => ?_
  have rest : ∀ between, heapFrame.Keeps (do
      hold held value
      let map ← load other
      save other { map with
        vec := map.vec.modify index (Option.map fun entry => { entry with value := value }) }) between :=
    fun _ => Frame.Keeps.bind (keeps_hold held value) fun _ _ _ =>
      keeps_load fun _ later => keeps_put (.inr ⟨_, later⟩)
  split
  · exact Frame.Keeps.bind (keeps_drop held _) fun _ after _ => rest after
  · exact rest store

theorem keeps_updateRehashed (key : Str) (value : α) (other : Nat) :
    heapFrame.Keeps (updateRehashed held hash key value other) store := by
  refine keeps_load fun map live => keeps_lift _ fun found => ?_
  split
  · exact Frame.Keeps.bind (keeps_assignAt held other _ value) fun _ _ _ => Frame.keeps_pure _
  · refine Frame.Keeps.ite (fun _ => ?_) fun _ => Frame.keeps_throw
    exact Frame.Keeps.bind (keeps_insertAt held other key value _) fun _ _ _ => Frame.keeps_pure _

section Frees

variable {map : Map α} {post : β → Store α → Prop}

theorem wp_load {other : Nat} {next : Map α → Counted α β}
    (rest : ∀ map, store.live other = some map → (next map).wp post (fun _ => True) store) :
    (load other >>= next).wp post (fun _ => True) store := by
  cases live : store.live other with
  | some map =>
    unfold Proc.wp
    rw [Proc.bind_ran (load_live live)]
    exact rest map live
  | none =>
    change (Proc.andThen (load other) next store).1.Meets _ _
    unfold Proc.andThen
    rw [load_freed live]
    trivial

theorem wp_lift (result : MapResult γ) {next : γ → Counted α β}
    (rest : ∀ value, (next value).wp post (fun _ => True) store) :
    (lift result >>= next).wp post (fun _ => True) store := by
  rw [Proc.wp_bind]
  unfold lift
  split
  · exact Proc.wp_pure (rest _)
  · trivial
  · trivial

theorem Later.wp {proc : Counted α β} (keeps : heapFrame.Keeps proc store) :
    proc.wp (fun _ after => Later store after) (fun _ => True) store :=
  (keeps trivial fun _ _ => trivial).2

theorem addref_apart {other : Nat} (live : store.live addr = some map) (apart : addr ≠ other) :
    (addref other).wp (fun _ after => after.live addr = some map) (fun _ => True) store := by
  refine wp_load fun found _ => ?_
  change (store.put other _).live addr = some map
  rw [Store.live_put_other apart]
  exact live

theorem holdAll_apart {values : List α} (live : store.live addr = some map)
    (apart : ∀ value ∈ values, held value ≠ some addr) :
    (holdAll held values).wp (fun _ after => after.live addr = some map) (fun _ => True) store := by
  induction values generalizing store with
  | nil => exact live
  | cons value rest ih =>
    have first : (hold held value).wp (fun _ after => after.live addr = some map) (fun _ => True)
        store := by
      unfold hold
      split
      · rename_i other holds
        exact addref_apart live fun same => apart value List.mem_cons_self (same ▸ holds)
      · exact live
    rw [holdAll, Proc.wp_bind]
    refine Proc.wp_mono first (fun _ after liveAfter => ?_) fun _ _ => trivial
    exact ih liveAfter fun other member => apart other (List.mem_cons_of_mem _ member)

/-- The last reference to a map that is given up frees it. -/
theorem delref_frees (live : store.live addr = some map) (last : map.delref = none) :
    (delref held addr).wp (fun _ after => Freed addr after) (fun _ => True) store := by
  unfold delref
  rw [Proc.wp_bind]
  change (delrefWithin held (store.maps.length + 1) addr).wp _ _ store
  refine wp_load fun found liveToo => ?_
  rw [live] at liveToo
  cases liveToo
  rw [last]
  dsimp only
  rw [Proc.wp_bind]
  change (dropAllWith held _ _ >>= fun _ => free addr).wp _ _ (store.put addr _)
  rw [Proc.wp_bind]
  refine Proc.wp_mono (Later.wp (keeps_dropAllWith held _ (keeps_delrefWithin held _) _))
    (fun _ after later => ?_) fun _ _ => trivial
  refine freed_put_none (Nat.lt_of_lt_of_le (Store.lt_of_live live) ?_)
  have grows := later.grows
  rwa [Store.length_put] at grows

/-- A cell of a freed map cannot be released. -/
theorem delref_freed (freed : store.live addr = none) :
    delref held addr store = (.aborted store, [addr]) := by
  unfold delref
  rw [Proc.bind_read, delrefWithin]
  change Proc.andThen (load addr) _ store = _
  unfold Proc.andThen
  rw [load_freed freed]

theorem rehashAt_frees (live : store.live addr = some map) (last : map.delref = none)
    (apart : ∀ value ∈ map.values, held value ≠ some addr) (needed : map.needsRehash force = true) :
    (rehashAt held hash addr force).wp (fun _ after => Freed addr after) (fun _ => True) store := by
  refine wp_load fun found liveToo => ?_
  rw [live] at liveToo
  cases liveToo
  rw [if_pos needed, Proc.wp_bind]
  have copies : (copyCtorAt held hash addr (2 ^ Map.chooseVecCapacityLog2 (map.i + 1))).wp
      (fun copy after => addr ≠ copy ∧ after.live addr = some map) (fun _ => True) store := by
    refine wp_load fun found liveToo => wp_lift _ fun copy => ?_
    rw [live] at liveToo
    cases liveToo
    rw [Proc.wp_bind]
    refine Proc.wp_mono (holdAll_apart held live apart) (fun _ after liveAfter => ?_) fun _ _ => trivial
    have bound := Store.lt_of_live liveAfter
    change addr ≠ after.maps.length ∧ (after.push copy).live addr = some map
    exact ⟨Nat.ne_of_lt bound, by rw [Store.live_push_other bound]; exact liveAfter⟩
  refine Proc.wp_mono copies (fun copy between ⟨different, liveAfter⟩ => ?_) fun _ _ => trivial
  rw [Proc.wp_bind]
  have owned : (Proc.when (map.refcount ≥ 1) (addref copy)).wp
      (fun _ after => after.live addr = some map) (fun _ => True) between :=
    Proc.wp_when (fun _ => addref_apart liveAfter different) fun _ => liveAfter
  refine Proc.wp_mono owned (fun _ after liveLast => ?_) fun _ _ => trivial
  rw [Proc.wp_bind]
  exact Proc.wp_mono (delref_frees held liveLast last) (fun _ _ freed => freed) fun _ _ => trivial

/-- An update that replaces a map with one reference frees it. -/
theorem updateAt_frees (live : store.live addr = some map) (last : map.delref = none)
    (apart : ∀ value ∈ map.values, held value ≠ some addr) (needed : map.needsRehash false = true)
    (key : Str) (value : α) :
    (updateAt held hash addr key value).wp (fun _ after => Freed addr after) (fun _ => True) store := by
  unfold updateAt
  rw [Proc.wp_bind]
  refine Proc.wp_mono (rehashAt_frees held hash live last apart needed)
    (fun other between freed => ?_) fun _ _ => trivial
  exact Proc.wp_mono (Later.wp (keeps_updateRehashed held hash key value other))
    (fun _ _ later => later.freed addr freed) fun _ _ => trivial

end Frees

end Freed

end Counted

end HandlebarsC
