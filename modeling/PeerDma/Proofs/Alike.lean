import PeerDma.Proofs.Calls
import PeerDma.Proofs.Transfer

/-!
# Instances that differ in their shards

Two instances are alike if their tables find the same at every key, however the entries are spread
over shards, and all else is the same. Every operation gives the same answer in both and leaves them
alike: none looks at a table but through a key.

* `Sharded.Alike`, `Mappings.Alike`, `Tasks.Alike`, `Ambient.Alike`, `World.Alike`: what is alike.
* `Both`: two answers of one operation, with what it leaves.
* `World.Alike.dispatch` and its like: one lemma for each operation.
* `System.Alike.perform`: calls leave systems alike.
-/

namespace PeerDma

/-! ## Answers -/

/-- Two answers of one operation: the same value, and states that are related. -/
inductive Both {α σ τ : Type} (R : σ → τ → Prop) : α × σ → α × τ → Prop where
  | mk (value : α) {s : σ} {t : τ} (h : R s t) : Both R (value, s) (value, t)

/-- What follows an operation depends on its answer and on what it leaves. -/
@[elab_as_elim]
theorem Both.elim {α σ τ : Type} {R : σ → τ → Prop} {motive : α × σ → α × τ → Prop} {a : α × σ}
    {b : α × τ} (h : Both R a b) (mk : ∀ value s t, R s t → motive (value, s) (value, t)) :
    motive a b := by
  cases h with
  | mk value h => exact mk value _ _ h

theorem Both.of_eq {α σ τ : Type} {R : σ → τ → Prop} {a b : α} {s : σ} {t : τ} (hvalue : a = b)
    (h : R s t) : Both R (a, s) (b, t) :=
  hvalue ▸ .mk a h

theorem Both.snd {α σ τ : Type} {R : σ → τ → Prop} {a : α × σ} {b : α × τ} (h : Both R a b) :
    R a.2 b.2 := by
  cases h with
  | mk value h => exact h

/-! ## Tables -/

namespace Sharded

variable {κ ν : Type} [DecidableEq κ]

/-- The same is found at every key. -/
def Alike (t u : Sharded κ ν) : Prop := ∀ key, t.find? key = u.find? key

namespace Alike

variable {t u : Sharded κ ν}

theorem empty (place place' : κ → Nat) (count count' : Nat) :
    (Sharded.empty place count : Sharded κ ν).Alike (.empty place' count') := fun key => by
  rw [find?_empty, find?_empty]

theorem insert (h : t.Alike u) (key : κ) (value : ν) :
    (t.insert key value).Alike (u.insert key value) := fun other => by
  rw [find?_insert, find?_insert, h other]

theorem erase (h : t.Alike u) (key : κ) : (t.erase key).Alike (u.erase key) := fun other => by
  rw [find?_erase, find?_erase, h other]

/-- A walk meets the same entries, perhaps in another order. -/
theorem toList_perm (h : t.Alike u) : t.toList.Perm u.toList := by
  refine (List.perm_ext_iff_of_nodup t.nodup_toList u.nodup_toList).2 ?_
  rintro ⟨key, value⟩
  rw [mem_toList_iff, mem_toList_iff, h key]

end Alike

end Sharded

namespace Mappings

/-- The same regions, in tables that are alike. -/
structure Alike (m n : Mappings) : Prop where
  table : m.table.Alike n.table
  draining : m.draining = n.draining
  pending : m.pending = n.pending
  handles : m.handles = n.handles
  bound : m.bound = n.bound
  stats : m.stats = n.stats

namespace Alike

variable {m n : Mappings}

theorem begin (h : m.Alike n) : Both Alike m.begin n.begin := by
  unfold Mappings.begin
  rw [h.handles, h.pending]
  exact .mk _ ⟨h.table, h.draining, rfl, rfl, h.bound, h.stats⟩

theorem finish (h : m.Alike n) (handle : Handle) :
    Both Alike (m.finish handle) (n.finish handle) := by
  unfold Mappings.finish
  rw [h.pending]
  exact .mk _ ⟨h.table, h.draining, rfl, h.handles, h.bound, h.stats⟩

theorem setPending (h : m.Alike n) (pending : List PendingMap) :
    Alike { m with pending } { n with pending } :=
  ⟨h.table, h.draining, rfl, h.handles, h.bound, h.stats⟩

theorem insert (h : m.Alike n) (handle : Handle) (use : RegionUse) :
    Alike { m with table := m.table.insert handle use }
      { n with table := n.table.insert handle use } :=
  ⟨h.table.insert handle use, h.draining, h.pending, h.handles, h.bound, h.stats⟩

theorem erase (h : m.Alike n) (handle : Handle) :
    Alike { m with table := m.table.erase handle } { n with table := n.table.erase handle } :=
  ⟨h.table.erase handle, h.draining, h.pending, h.handles, h.bound, h.stats⟩

theorem setDraining (h : m.Alike n) (draining : Table Handle RegionUse) :
    Alike { m with draining } { n with draining } :=
  ⟨h.table, rfl, h.pending, h.handles, h.bound, h.stats⟩

theorem drain (h : m.Alike n) (use : RegionUse) : (m.drain use).Alike (n.drain use) := by
  unfold Mappings.drain
  rw [h.draining]
  exact h.setDraining _

theorem forget (h : m.Alike n) (handle : Handle) : (m.forget handle).Alike (n.forget handle) := by
  unfold Mappings.forget
  rw [h.draining, h.stats]
  exact ⟨h.table, rfl, h.pending, h.handles, h.bound, rfl⟩

theorem countMapped (h : m.Alike n) : m.countMapped.Alike n.countMapped := by
  unfold Mappings.countMapped
  rw [h.stats]
  exact ⟨h.table, h.draining, h.pending, h.handles, h.bound, rfl⟩

theorem countEvicted (h : m.Alike n) : m.countEvicted.Alike n.countEvicted := by
  unfold Mappings.countEvicted
  rw [h.stats]
  exact ⟨h.table, h.draining, h.pending, h.handles, h.bound, rfl⟩

end Alike

end Mappings

namespace Tasks

/-- The same tasks, in tables that are alike. -/
structure Alike (t u : Tasks) : Prop where
  table : t.table.Alike u.table
  outstanding : t.outstanding = u.outstanding
  ids : t.ids = u.ids
  stats : t.stats = u.stats

namespace Alike

variable {t u : Tasks}

theorem insert (h : t.Alike u) (id : TaskId) (task : Task) :
    Alike { t with table := t.table.insert id task } { u with table := u.table.insert id task } :=
  ⟨h.table.insert id task, h.outstanding, h.ids, h.stats⟩

theorem erase (h : t.Alike u) (id : TaskId) :
    Alike { t with table := t.table.erase id } { u with table := u.table.erase id } :=
  ⟨h.table.erase id, h.outstanding, h.ids, h.stats⟩

theorem setOutstanding (h : t.Alike u) (outstanding : Table TaskId Nat) :
    Alike { t with outstanding } { u with outstanding } :=
  ⟨h.table, rfl, h.ids, h.stats⟩

theorem outstandingOf (h : t.Alike u) (id : TaskId) : t.outstandingOf id = u.outstandingOf id := by
  unfold Tasks.outstandingOf
  rw [h.outstanding]

theorem allocate (h : t.Alike u) : Both Alike t.allocate u.allocate := by
  unfold Tasks.allocate
  rw [h.ids]
  exact .mk _ ⟨h.table, h.outstanding, rfl, h.stats⟩

theorem register (h : t.Alike u) (task : Task) : (t.register task).Alike (u.register task) := by
  unfold Tasks.register
  rw [h.outstanding, h.stats]
  exact ⟨h.table.insert task.id task, rfl, h.ids, rfl⟩

theorem reject (h : t.Alike u) : t.reject.Alike u.reject := by
  unfold Tasks.reject
  rw [h.stats]
  exact ⟨h.table, h.outstanding, h.ids, rfl⟩

theorem begin (h : t.Alike u) (id : TaskId) : (t.begin id).Alike (u.begin id) := by
  unfold Tasks.begin
  rw [h.outstandingOf, h.outstanding]
  exact h.setOutstanding _

theorem finish (h : t.Alike u) (id : TaskId) : Both Alike (t.finish id) (u.finish id) := by
  unfold Tasks.finish
  rw [h.outstandingOf, h.outstanding]
  split
  · exact .mk _ h
  · exact .mk _ (h.setOutstanding _)
  · exact .mk _ (h.setOutstanding _)

end Alike

end Tasks

/-! ## Surroundings -/

variable {ε : Type} (p : Platform ε)

namespace Ambient

/-- The same state, and the same history but for its first event. -/
structure Alike (a b : Ambient ε) : Prop where
  outside : a.outside = b.outside
  begun : a.history ≠ []
  begun' : b.history ≠ []
  history : a.history.dropLast = b.history.dropLast

namespace Alike

variable {a b : Ambient ε}

theorem setOutside (h : a.Alike b) (x : ε) :
    Alike { a with outside := x } { b with outside := x } :=
  ⟨rfl, h.begun, h.begun', h.history⟩

theorem note (h : a.Alike b) (e : Event) : (a.note e).Alike (b.note e) where
  outside := h.outside
  begun := List.cons_ne_nil e _
  begun' := List.cons_ne_nil e _
  history := by
    show (e :: a.history).dropLast = (e :: b.history).dropLast
    rw [List.dropLast_cons_of_ne_nil h.begun, List.dropLast_cons_of_ne_nil h.begun', h.history]

theorem log (h : a.Alike b) (entry : Log.Entry) : (a.log entry).Alike (b.log entry) :=
  h.note (.logged entry)

theorem pin (h : a.Alike b) (handle : Handle) (base : GpuAddr) (length : Nat) :
    Both Alike (a.pin p handle base length) (b.pin p handle base length) := by
  unfold Ambient.pin
  rw [h.outside]
  rcases p.pin handle base length b.outside with ⟨e | grant, x⟩
  · exact .mk _ (h.setOutside x)
  · exact .mk _ ((h.setOutside x).note _)

theorem unpin (h : a.Alike b) (handle : Handle) (base : GpuAddr) (table : PageTable)
    (cause : Cause) :
    Both Alike (a.unpin p handle base table cause) (b.unpin p handle base table cause) := by
  unfold Ambient.unpin
  rw [h.outside]
  exact .mk _ ((h.setOutside _).note _)

theorem release (h : a.Alike b) (pins : PinSet) : (a.release p pins).Alike (b.release p pins) := by
  unfold Ambient.release
  split
  · exact h
  · rw [h.outside]
    exact (h.setOutside _).note _

theorem releaseAll (h : a.Alike b) (pins : List PinSet) :
    (a.releaseAll p pins).Alike (b.releaseAll p pins) := by
  unfold Ambient.releaseAll
  induction pins generalizing a b with
  | nil => exact h
  | cons first rest ih => exact ih (h.release p first)

theorem cachedPage (h : a.Alike b) (file : File) (index : Nat) :
    Both Alike (a.cachedPage p file index) (b.cachedPage p file index) := by
  unfold Ambient.cachedPage
  rw [h.outside]
  rcases p.cachedPage file index b.outside with ⟨_ | page, x⟩
  · exact .mk _ (h.setOutside x)
  · exact .mk _ ((h.setOutside x).note _)

theorem resolveBlock (h : a.Alike b) (file : File) (index : Nat) :
    Both Alike (a.resolveBlock p file index) (b.resolveBlock p file index) := by
  unfold Ambient.resolveBlock
  rw [h.outside]
  rcases p.resolveBlock file index b.outside with ⟨e | block, x⟩
  · exact .mk _ (h.setOutside x)
  · exact .mk _ ((h.setOutside x).note _)

theorem openChecked (h : a.Alike b) (pageSize : Nat) (descriptor : Int) :
    Both Alike (a.openChecked p pageSize descriptor) (b.openChecked p pageSize descriptor) := by
  unfold Ambient.openChecked Ambient.checkFile
  rw [h.outside]
  cases p.openFile descriptor b.outside with
  | error e => exact .mk _ h
  | ok file =>
    dsimp only
    cases file.classify pageSize (p.provider · b.outside) with
    | error reason => exact .mk _ (h.log _)
    | ok _ => exact .mk _ h

theorem locate (h : a.Alike b) (file : File) (span : Span) :
    Both Alike (a.locate p file span) (b.locate p file span) := by
  unfold Ambient.locate
  refine (h.cachedPage p file span.index).elim fun page a b h => ?_
  cases page with
  | some page => exact .mk _ h
  | none =>
    dsimp only
    refine (h.resolveBlock p file span.index).elim fun answer a b h => ?_
    cases answer with
    | error e => exact .mk _ h
    | ok block =>
      dsimp only
      split <;> exact .mk _ h

theorem locateAll (h : a.Alike b) (pageSize : Nat) (file : File) (offset length : Nat)
    (pins : PinSet) :
    Both Alike (a.locateAll p pageSize file offset length pins)
      (b.locateAll p pageSize file offset length pins) := by
  induction length using Nat.strongRecOn generalizing offset pins a b with
  | ind length ih =>
    by_cases hend : pageSize = 0 ∨ length = 0
    · rw [Ambient.locateAll, Ambient.locateAll, dif_pos hend, dif_pos hend]
      exact .mk _ h
    · have hpos := Span.first_length_pos offset hend
      rw [Ambient.locateAll, Ambient.locateAll, dif_neg hend, dif_neg hend]
      dsimp only
      refine (h.locate p file (Span.first pageSize offset length)).elim fun answer a b h => ?_
      cases answer with
      | error e => exact .mk _ (h.release p pins)
      | ok found =>
        dsimp only
        refine (ih (length - (Span.first pageSize offset length).length) (by omega) h _ _).elim
          fun rest a b h => ?_
        cases rest <;> exact .mk _ h

theorem resolveFile (h : a.Alike b) (pageSize : Nat) (file : Option File) (offset length : Nat) :
    Both Alike (a.resolveFile p pageSize file offset length)
      (b.resolveFile p pageSize file offset length) := by
  unfold Ambient.resolveFile
  cases file with
  | none => exact .mk _ (h.log _)
  | some file =>
    dsimp only
    cases Word.add? offset length with
    | none => exact .mk _ h
    | some stop =>
      dsimp only
      refine (h.locateAll p pageSize file offset length {}).elim fun answer a b h => ?_
      cases answer <;> exact .mk _ h

theorem probePage (h : a.Alike b) (file : File) (index : Nat) :
    Both Alike (a.probePage p file index) (b.probePage p file index) := by
  unfold Ambient.probePage
  refine (h.cachedPage p file index).elim fun page a b h => ?_
  cases page with
  | some page => exact .mk _ (h.release p _)
  | none =>
    dsimp only
    refine (h.resolveBlock p file index).elim fun answer a b h => ?_
    cases answer <;> exact .mk _ h

/-- What is done with each page that is probed looks at neither instance. -/
theorem probe {visit : PageProbe → Ambient ε → Ambient ε}
    (hv : ∀ page (a b : Ambient ε), a.Alike b → (visit page a).Alike (visit page b))
    (h : a.Alike b) (pageSize : Nat) (file : File) (offset length : Nat) :
    Both Alike (a.probe p visit pageSize file offset length)
      (b.probe p visit pageSize file offset length) := by
  unfold Ambient.probe
  induction pagesInRange file.size pageSize offset length generalizing a b with
  | nil => exact .mk _ h
  | cons index rest ih =>
    unfold Ambient.probePages
    refine (h.probePage p file index).elim fun page a b h => ?_
    dsimp only
    refine (ih (hv page a b h)).elim fun pages a b h => ?_
    exact .mk _ h

end Alike

end Ambient

/-! ## Worlds -/

namespace World

/-- The same instance but for its shards, in the same surroundings. -/
structure Alike (u v : World ε) : Prop where
  pageSize : u.core.config.hostPageSize = v.core.config.hostPageSize
  mappings : u.core.mappings.Alike v.core.mappings
  tasks : u.core.tasks.Alike v.core.tasks
  flights : u.core.flights = v.core.flights
  parking : u.core.parking = v.core.parking
  ambient : u.ambient.Alike v.ambient

namespace Alike

variable {u v : World ε}

theorem setAmbient (h : u.Alike v) {a b : Ambient ε} (ha : a.Alike b) :
    Alike { u with ambient := a } { v with ambient := b } :=
  ⟨h.pageSize, h.mappings, h.tasks, h.flights, h.parking, ha⟩

theorem setOutside (h : u.Alike v) (x : ε) : (u.setOutside x).Alike (v.setOutside x) :=
  h.setAmbient (h.ambient.setOutside x)

theorem note (h : u.Alike v) (e : Event) : (u.note e).Alike (v.note e) :=
  h.setAmbient (h.ambient.note e)

theorem log (h : u.Alike v) (entry : Log.Entry) : (u.log entry).Alike (v.log entry) :=
  h.setAmbient (h.ambient.log entry)

theorem log? (h : u.Alike v) (entry : Option Log.Entry) : (u.log? entry).Alike (v.log? entry) := by
  cases entry with
  | none => exact h
  | some entry => exact h.log entry

theorem setMappings (h : u.Alike v) {m n : Mappings} (hm : m.Alike n) :
    (u.setMappings m).Alike (v.setMappings n) :=
  ⟨h.pageSize, hm, h.tasks, h.flights, h.parking, h.ambient⟩

theorem setTasks (h : u.Alike v) {t t' : Tasks} (ht : t.Alike t') :
    (u.setTasks t).Alike (v.setTasks t') :=
  ⟨h.pageSize, h.mappings, ht, h.flights, h.parking, h.ambient⟩

theorem setFlights (h : u.Alike v) (flights : Flights) :
    (u.setFlights flights).Alike (v.setFlights flights) :=
  ⟨h.pageSize, h.mappings, h.tasks, rfl, h.parking, h.ambient⟩

theorem setParking (h : u.Alike v) (parking : Parking) :
    (u.setParking parking).Alike (v.setParking parking) :=
  ⟨h.pageSize, h.mappings, h.tasks, h.flights, rfl, h.ambient⟩

theorem liftAmbient {α : Type} {f : Ambient ε → α × Ambient ε} (h : u.Alike v)
    (hf : Both Ambient.Alike (f u.ambient) (f v.ambient)) :
    Both Alike (u.liftAmbient f) (v.liftAmbient f) := by
  unfold World.liftAmbient
  exact hf.elim fun value a b ha => .mk value (h.setAmbient ha)

theorem foldl {α : Type} {f : World ε → α → World ε}
    (hf : ∀ x (u v : World ε), u.Alike v → (f u x).Alike (f v x)) (h : u.Alike v) (l : List α) :
    (l.foldl f u).Alike (l.foldl f v) := by
  induction l generalizing u v with
  | nil => exact h
  | cons x rest ih => exact ih (hf x u v h)

/-! ### Regions -/

theorem unpinRegion (h : u.Alike v) (region : Region) (cause : Cause) :
    (u.unpinRegion p region cause).Alike (v.unpinRegion p region cause) := by
  unfold World.unpinRegion
  refine (h.ambient.unpin p region.handle region.base region.table cause).elim
    fun answer a b ha => ?_
  have h := h.setAmbient ha
  cases answer with
  | error e =>
    have h := h.log (.unpinFailed region.handle e)
    exact (h.setMappings (h.mappings.forget region.handle)).log _
  | ok _ => exact (h.setMappings (h.mappings.forget region.handle)).log _

theorem unpinEvicted (h : u.Alike v) (region : Region) :
    (u.unpinEvicted p region).Alike (v.unpinEvicted p region) := by
  have h := h.unpinRegion p region .evicted
  exact (h.setMappings h.mappings.countEvicted).log _

theorem resume (h : u.Alike v) (s : Sleeper) : (u.resume p s).Alike (v.resume p s) := by
  unfold World.resume
  cases s.rest with
  | teardown region cause => exact (h.unpinRegion p region cause).note _
  | eviction region => exact (h.unpinEvicted p region).note _
  | wait => exact h.note _
  | copy task => exact h.note _

theorem wake (h : u.Alike v) (waiter : Waiter) : (u.wake p waiter).Alike (v.wake p waiter) := by
  unfold World.wake
  rw [h.parking]
  exact (h.setParking _).foldl (fun s _ _ h => h.resume p s) _

theorem wake? (h : u.Alike v) (waiter : Option Waiter) :
    (u.wake? p waiter).Alike (v.wake? p waiter) := by
  cases waiter with
  | none => exact h
  | some waiter => exact h.wake p waiter

theorem put (h : u.Alike v) (handle : Handle) : (u.put p handle).Alike (v.put p handle) := by
  unfold World.put Mappings.put?
  rw [h.mappings.table handle]
  cases v.core.mappings.table.find? handle with
  | some use =>
    dsimp only
    cases use.put? with
    | none => exact h.log _
    | some put => exact (h.setMappings (h.mappings.insert handle put.2)).wake? p put.1
  | none =>
    dsimp only
    rw [h.mappings.draining]
    cases v.core.mappings.draining.find? handle with
    | none => exact h.log _
    | some use =>
      dsimp only
      cases use.put? with
      | none => exact h.log _
      | some put => exact (h.setMappings (h.mappings.setDraining _)).wake? p put.1

theorem detach {now : Region → World ε → World ε}
    (hnow : ∀ region (u v : World ε), u.Alike v → (now region u).Alike (now region v))
    (h : u.Alike v) (handle : Handle) (later : Region → Rest) :
    Both Alike (u.detach handle now later) (v.detach handle now later) := by
  unfold World.detach Mappings.detach?
  rw [h.mappings.table handle]
  cases v.core.mappings.table.find? handle with
  | none => exact .mk _ h
  | some use =>
    dsimp only [Option.map_some]
    have h := h.setMappings (h.mappings.erase handle)
    generalize u.setMappings
      { u.core.mappings with table := u.core.mappings.table.erase handle } = u at h ⊢
    generalize v.setMappings
      { v.core.mappings with table := v.core.mappings.table.erase handle } = v at h ⊢
    rw [h.parking]
    split
    · exact .mk _ (hnow _ _ _ h)
    · have h := h.setMappings (h.mappings.drain { use with
        slot := (use.slot.install v.core.parking.fresh.1).1 })
      exact .mk _ ((h.setParking _).log _)

theorem teardown (h : u.Alike v) (handle : Handle) (cause : Cause) :
    Both Alike (u.teardown p handle cause) (v.teardown p handle cause) := by
  unfold World.teardown
  refine (h.detach (fun region _ _ h => h.unpinRegion p region cause) handle
    (.teardown · cause)).elim fun answer u v h => ?_
  rcases answer with (e | _) | waiter
  · exact .mk _ (h.log _)
  · exact .mk _ h
  · exact .mk _ h

theorem evict (h : u.Alike v) (handle : Handle) :
    Both Alike (u.evict p handle) (v.evict p handle) := by
  unfold World.evict Mappings.revoke?
  rw [h.mappings.pending]
  by_cases hpending : v.core.mappings.pending.any (·.handle = handle)
  · rw [if_pos hpending, if_pos hpending]
    exact .mk _ (h.setMappings (h.mappings.setPending _))
  · rw [if_neg hpending, if_neg hpending]
    dsimp only
    refine (h.detach (fun region _ _ h => h.unpinEvicted p region) handle .eviction).elim
      fun answer u v h => ?_
    rcases answer with (e | _) | waiter
    · exact .mk _ (h.log _)
    · exact .mk _ h
    · exact .mk _ h

theorem rollBack (h : u.Alike v) (handle : Handle) (base : GpuAddr) (table : PageTable)
    (cause : Cause) :
    (u.rollBack p handle base table cause).Alike (v.rollBack p handle base table cause) := by
  unfold World.rollBack
  refine (h.ambient.unpin p handle base table cause).elim fun answer a b ha => ?_
  cases answer with
  | error e => exact (h.setAmbient ha).log _
  | ok _ => exact h.setAmbient ha

theorem finishMap (h : u.Alike v) (handle : Handle) :
    Both Alike (u.finishMap handle) (v.finishMap handle) := by
  unfold World.finishMap
  exact (h.mappings.finish handle).elim fun revoked m n hm => .mk _ (h.setMappings hm)

theorem pinMap (h : u.Alike v) (handle : Handle) (base : GpuAddr) (length : Nat) :
    Both Alike (u.pinMap p handle base length) (v.pinMap p handle base length) := by
  unfold World.pinMap
  refine (h.ambient.pin p handle base length).elim fun answer a b ha => ?_
  have h := h.setAmbient ha
  cases answer with
  | error e => exact .mk _ h
  | ok grant =>
    dsimp only
    split
    · exact .mk _ (h.evict p handle).snd
    · exact .mk _ h

theorem logRegion (h : u.Alike v) (region : Region) :
    (u.logRegion region).Alike (v.logRegion region) := by
  unfold World.logRegion
  refine (h.log _).foldl (fun ⟨page, i⟩ u v h => ?_) _
  exact h.log _

theorem enter (h : u.Alike v) (region : Region) :
    Both Alike (u.enter p region) (v.enter p region) := by
  unfold World.enter
  refine ((h.logRegion region).finishMap region.handle).elim fun revoked u v h => ?_
  cases revoked with
  | true =>
    have h := (h.log (.evictedWhileMapping region.handle)).rollBack p region.handle region.base
      region.table .evicted
    exact .mk _ (h.setMappings h.mappings.countEvicted)
  | false =>
    exact .mk _ (h.setMappings (h.mappings.insert region.handle { region }).countMapped)

theorem refuseTable (h : u.Alike v) (handle : Handle) (base : GpuAddr) (table : PageTable)
    (entry : Log.Entry) :
    Both Alike (u.refuseTable p handle base table entry)
      (v.refuseTable p handle base table entry) :=
  .mk _ (((h.log entry).finishMap handle).snd.rollBack p handle base table .unmap)

theorem map (h : u.Alike v) (owner : Pid) (address : GpuAddr) (length : Nat) :
    Both Alike (u.map p owner address length) (v.map p owner address length) := by
  unfold World.map
  split
  · exact .mk _ (h.log _)
  · rw [h.mappings.bound]
    refine h.mappings.begin.elim fun handle m n hm => ?_
    dsimp only
    refine ((h.setMappings hm).pinMap p handle _ _).elim fun answer u v h => ?_
    cases answer with
    | error e => exact .mk _ ((h.finishMap handle).snd.log _)
    | ok table =>
      dsimp only
      split
      · exact h.refuseTable p ..
      · split
        · exact h.refuseTable p ..
        · exact h.enter p _

theorem acquire (h : u.Alike v) (handle : Handle) :
    Both Alike (u.acquire handle) (v.acquire handle) := by
  unfold World.acquire Mappings.acquire?
  rw [h.mappings.table handle]
  cases v.core.mappings.table.find? handle with
  | none => exact .mk _ (h.log _)
  | some use => exact .mk _ (h.setMappings (h.mappings.insert handle _))

theorem window (h : u.Alike v) (region : Region) (offset length : Nat) :
    Both Alike (u.window region offset length) (v.window region offset length) := by
  unfold World.window
  cases region.window offset length with
  | error fault => exact .mk _ (h.log? _)
  | ok start => exact .mk _ h

theorem info (h : u.Alike v) (handle : Handle) (capacity : Nat) :
    Both Alike (u.info p handle capacity) (v.info p handle capacity) := by
  unfold World.info
  refine (h.acquire handle).elim fun answer u v h => ?_
  cases answer with
  | error e => exact .mk _ h
  | ok use => exact .mk _ (h.put p handle)

/-! ### Tasks -/

theorem releaseAll (h : u.Alike v) (pins : List PinSet) :
    (u.releaseAll p pins).Alike (v.releaseAll p pins) :=
  h.setAmbient (h.ambient.releaseAll p pins)

theorem cleanup (h : u.Alike v) (id : TaskId) :
    Both Alike (u.cleanup p id) (v.cleanup p id) := by
  unfold World.cleanup Tasks.remove?
  rw [h.tasks.table id]
  cases v.core.tasks.table.find? id with
  | none => exact .mk _ (h.log _)
  | some task =>
    have h := (h.setTasks (h.tasks.erase id)).put p task.holds.region.handle
    exact .mk _ (((h.releaseAll p task.holds.pins).wake? p task.slot.occupant).log _)

theorem cleanupAll (h : u.Alike v) (ids : List TaskId) :
    (u.cleanupAll p ids).Alike (v.cleanupAll p ids) :=
  h.foldl (fun id _ _ h => (h.cleanup p id).snd) ids

theorem finish (h : u.Alike v) (id : TaskId) : (u.finish p id).Alike (v.finish p id) := by
  unfold World.finish
  refine (h.tasks.finish id).elim fun last t t' ht => ?_
  have h := h.setTasks ht
  cases last with
  | true => exact (h.cleanup p id).snd
  | false => exact h

theorem land (h : u.Alike v) (token : Token) : (u.land p token).Alike (v.land p token) := by
  unfold World.land
  rw [h.flights]
  cases v.core.flights.land? token with
  | none => exact h
  | some landed => exact ((h.setFlights landed.2).note _).finish p _

theorem landAll (h : u.Alike v) (tokens : List Token) :
    (u.landAll p tokens).Alike (v.landAll p tokens) :=
  h.foldl (fun token _ _ h => h.land p token) tokens

theorem submitAnswer (h : u.Alike v) (run : Run) : u.submitAnswer p run = v.submitAnswer p run := by
  unfold World.submitAnswer
  rw [h.flights, h.ambient.outside]

theorem nextFlight (h : u.Alike v) (id : TaskId) (run : Run) :
    u.nextFlight id run = v.nextFlight id run := by
  unfold World.nextFlight
  rw [h.flights]

theorem offer (h : u.Alike v) (id : TaskId) (run : Run) :
    (u.offer id run).Alike (v.offer id run) := by
  unfold World.offer
  rw [h.flights]
  exact ((h.log (.submitting id run)).setTasks (h.tasks.begin id)).setFlights _

theorem offered (h : u.Alike v) (id : TaskId) (run : Run) :
    (u.offered p id run).Alike (v.offered p id run) := by
  unfold World.offered
  rw [h.submitAnswer]
  have h := h.offer id run
  exact (h.setAmbient (h.ambient.setOutside _)).cleanupAll p _

theorem submit (h : u.Alike v) (id : TaskId) (run : Run) :
    Both Alike (u.submit p id run) (v.submit p id run) := by
  rw [submit_eq, submit_eq, h.submitAnswer, h.nextFlight]
  have h := h.offered p id run
  split
  · exact .mk _ ((h.note _).landAll p _)
  · exact .mk _ (h.landAll p _)

theorem await (h : u.Alike v) (id : TaskId) (rest : Rest) :
    Both Alike (u.await id rest) (v.await id rest) := by
  unfold World.await Tasks.install?
  rw [h.tasks.table id, h.parking]
  dsimp only
  cases v.core.tasks.table.find? id with
  | none => exact .mk _ h
  | some task => exact .mk _ ((h.setTasks (h.tasks.insert id _)).setParking _)

theorem wait (h : u.Alike v) (id : TaskId) : Both Alike (u.wait id) (v.wait id) := h.await id .wait

/-! ### Sources -/

theorem pinHost (h : u.Alike v) (address count : Nat) :
    Both Alike (u.pinHost p address count) (v.pinHost p address count) := by
  unfold World.pinHost
  rw [h.ambient.outside]
  rcases p.pinHost address count v.ambient.outside with ⟨⟨cleanups, pages⟩, x⟩
  have h := (h.setAmbient (h.ambient.setOutside x)).cleanupAll p cleanups
  cases pages with
  | error e => exact .mk _ h
  | ok pages => exact .mk _ (h.note _)

theorem resolveHost (h : u.Alike v) (pageSize address length : Nat) :
    Both Alike (u.resolveHost p pageSize address length)
      (v.resolveHost p pageSize address length) := by
  unfold World.resolveHost
  cases Word.add? address length with
  | none => exact .mk _ h
  | some stop =>
    dsimp only
    refine (h.pinHost p _ _).elim fun answer u v h => ?_
    cases answer with
    | error e => exact .mk _ h
    | ok pages =>
      dsimp only
      split
      · exact .mk _ ((h.log _).releaseAll p _)
      · exact .mk _ h

theorem resolveChunk (h : u.Alike v) (file : Option File) (chunk : Chunk) :
    Both Alike (u.resolveChunk p file chunk) (v.resolveChunk p file chunk) := by
  unfold World.resolveChunk
  rw [h.pageSize]
  cases chunk with
  | host address length => exact h.resolveHost p _ address length
  | file offset length => exact h.liftAmbient (h.ambient.resolveFile p _ file offset length)

theorem resolve (h : u.Alike v) (file : Option File) (chunks : List Chunk) :
    Both Alike (u.resolve p file chunks) (v.resolve p file chunks) := by
  induction chunks generalizing u v with
  | nil => exact .mk _ h
  | cons chunk rest ih =>
    unfold World.resolve
    refine (h.resolveChunk p file chunk).elim fun answer u v h => ?_
    cases answer with
    | error e => exact .mk _ h
    | ok found =>
      dsimp only
      refine (ih h).elim fun more u v h => ?_
      cases more <;> exact .mk _ h

/-! ### Requests -/

theorem retain (h : u.Alike v) (id : TaskId) (pins : List PinSet) :
    (u.retain p id pins).Alike (v.retain p id pins) := by
  unfold World.retain Tasks.retain?
  rw [h.tasks.table id]
  cases v.core.tasks.table.find? id with
  | none => exact h.releaseAll p pins
  | some task => exact h.setTasks (h.tasks.insert id _)

theorem feed (h : u.Alike v) (id : TaskId) (runs : List Run) :
    Both Alike (Sink.feed (fun run w => w.submit p id run) runs u)
      (Sink.feed (fun run w => w.submit p id run) runs v) := by
  induction runs generalizing u v with
  | nil => exact .mk _ h
  | cons run rest ih =>
    unfold Sink.feed
    refine (h.submit p id run).elim fun answer u v h => ?_
    cases answer with
    | error e => exact .mk _ h
    | ok _ => exact ih h

/-- A cursor looks at the instance only through what becomes of its runs, since streaming is
planning. -/
theorem drive (h : u.Alike v) (id : TaskId) (extents : List Extent) (c : Cursor) :
    Both Alike (c.drive (fun run w => w.submit p id run) extents u)
      (c.drive (fun run w => w.submit p id run) extents v) := by
  rw [Cursor.drive_eq_feed extents c u, Cursor.drive_eq_feed extents c v]
  refine (h.feed p id _).elim fun answer u v h => ?_
  cases answer <;> exact .mk _ h

theorem submitAll (h : u.Alike v) (task : Task) (region : Region) (extents : List Extent) :
    Both Alike (u.submitAll p task region extents) (v.submitAll p task region extents) := by
  unfold World.submitAll
  dsimp only
  refine (h.drive p task.id extents _).elim fun answer u v h => ?_
  cases answer with
  | error stop =>
    cases stop with
    | refused e => exact .mk _ (h.log _)
    | outside position => exact .mk _ ((h.log _).log _)
  | ok _ => exact .mk _ h

theorem launch (h : u.Alike v) (task : Task) :
    Both Alike (u.launch p task) (v.launch p task) := by
  unfold World.launch
  rw [h.tasks.table task.id]
  cases v.core.tasks.table.find? task.id with
  | none => exact .mk _ (h.log _)
  | some registered =>
    dsimp only
    refine (h.resolve p registered.holds.file task.chunks).elim fun answer u v h => ?_
    rcases answer with stop | ⟨extents, pins⟩
    · exact .mk _ (((h.log _).releaseAll p stop.pins).cleanup p task.id).snd
    · dsimp only
      have h := (h.retain p task.id pins).log (.resolved task.id extents.length task.length)
      refine (h.submitAll p task registered.holds.region extents).elim fun answer u v h => ?_
      exact .mk _ (h.finish p task.id)

theorem openChecked (h : u.Alike v) (pageSize : Nat) (descriptor : Int) :
    Both Alike (u.liftAmbient (·.openChecked p pageSize descriptor))
      (v.liftAmbient (·.openChecked p pageSize descriptor)) :=
  h.liftAmbient (h.ambient.openChecked p pageSize descriptor)

theorem sourceFile (h : u.Alike v) (order : CopyOrder) :
    Both Alike (u.sourceFile p order) (v.sourceFile p order) := by
  unfold World.sourceFile
  split
  · cases order.descriptor with
    | none => exact .mk _ (h.log _)
    | some descriptor =>
      rw [h.pageSize]
      dsimp only
      refine (h.openChecked p v.core.config.hostPageSize descriptor).elim fun answer u v h => ?_
      cases answer <;> exact .mk _ h
  · exact .mk _ h

theorem prepare (h : u.Alike v) (order : CopyOrder) :
    Both Alike (u.prepare p order) (v.prepare p order) := by
  unfold World.prepare
  cases Chunk.totalLength order.chunks with
  | error fault => exact .mk _ (h.log? _)
  | ok length =>
    dsimp only
    refine (h.acquire order.handle).elim fun answer u v h => ?_
    cases answer with
    | error e => exact .mk _ h
    | ok use =>
      dsimp only
      refine (h.window use.region order.offset length).elim fun answer u v h => ?_
      cases answer with
      | error e => exact .mk _ (h.put p order.handle)
      | ok start =>
        dsimp only
        refine (h.sourceFile p order).elim fun answer u v h => ?_
        cases answer with
        | error e => exact .mk _ (h.put p order.handle)
        | ok file =>
          dsimp only
          exact h.tasks.allocate.elim fun id t t' ht => .mk _ (h.setTasks ht)

theorem copyAsync (h : u.Alike v) (order : CopyOrder) :
    Both Alike (u.copyAsync p order) (v.copyAsync p order) := by
  unfold World.copyAsync
  refine (h.prepare p order).elim fun answer u v h => ?_
  cases answer with
  | error e => exact .mk _ (h.setTasks h.tasks.reject)
  | ok task =>
    dsimp only
    refine (((h.setTasks (h.tasks.register task)).log _).launch p task).elim fun answer u v h => ?_
    cases answer <;> exact .mk _ h

theorem copy (h : u.Alike v) (order : CopyOrder) :
    Both Alike (u.copy p order) (v.copy p order) := by
  unfold World.copy
  refine (h.copyAsync p order).elim fun answer u v h => ?_
  cases answer with
  | error e => exact .mk _ h
  | ok id =>
    dsimp only
    refine (h.await id (.copy id)).elim fun answer u v h => ?_
    cases answer <;> exact .mk _ h

theorem checkFile (h : u.Alike v) (descriptor : Int) :
    Both Alike (u.checkFile p descriptor) (v.checkFile p descriptor) := by
  unfold World.checkFile
  rw [h.pageSize]
  exact (h.openChecked p _ descriptor).elim fun answer u v h => .mk _ h

theorem probeFile (h : u.Alike v) (pageSize : Nat) (file : File) (offset length : Nat) :
    Both Alike (u.liftAmbient (·.probe p logProbe pageSize file offset length))
      (v.liftAmbient (·.probe p logProbe pageSize file offset length)) := by
  have hv (page : PageProbe) (a b : Ambient ε) (h : a.Alike b) :
      (logProbe page a).Alike (logProbe page b) := h.log _
  exact h.liftAmbient (Ambient.Alike.probe p hv h.ambient pageSize file offset length)

theorem probe (h : u.Alike v) (descriptor : Int) (offset length : Nat) :
    Both Alike (u.probe p logProbe descriptor offset length)
      (v.probe p logProbe descriptor offset length) := by
  unfold World.probe
  rw [h.pageSize]
  generalize v.core.config.hostPageSize = pageSize
  dsimp only
  refine (h.openChecked p pageSize descriptor).elim fun answer u v h => ?_
  cases answer with
  | error e => exact .mk _ h
  | ok file =>
    dsimp only
    exact (h.probeFile p pageSize file offset length).elim
      fun answer u v h => .mk _ h

/-! ### Commands -/

theorem decodeCopy (h : u.Alike v) (b : CopyBlock) :
    Both Alike (u.decodeCopy b) (v.decodeCopy b) := by
  unfold World.decodeCopy
  cases b.order with
  | error fault => exact .mk _ (h.log? _)
  | ok order => exact .mk _ h

theorem execute (h : u.Alike v) (caller : Pid) (block : Block) :
    Both Alike (u.execute p caller block) (v.execute p caller block) := by
  unfold World.execute
  cases block with
  | checkFile descriptor =>
    dsimp only
    exact (h.checkFile p descriptor).elim fun _ _ _ h => .mk _ h
  | map b =>
    dsimp only
    exact (h.map p caller ⟨b.address⟩ b.length).elim fun _ _ _ h => .mk _ h
  | unmap handle =>
    dsimp only
    exact (h.teardown p ⟨handle⟩ .unmap).elim fun _ _ _ h => .mk _ h
  | info b =>
    dsimp only
    exact (h.info p ⟨b.handle⟩ b.capacity).elim fun _ _ _ h => .mk _ h
  | copy b =>
    dsimp only
    refine (h.decodeCopy b).elim fun answer u v h => ?_
    cases answer with
    | error e => exact .mk _ h
    | ok order =>
      dsimp only
      exact (h.copy p order).elim fun _ _ _ h => .mk _ h
  | copyAsync b =>
    dsimp only
    refine (h.decodeCopy b).elim fun answer u v h => ?_
    cases answer with
    | error e => exact .mk _ h
    | ok order =>
      dsimp only
      exact (h.copyAsync p order).elim fun _ _ _ h => .mk _ h
  | wait task =>
    dsimp only
    exact (h.wait ⟨task⟩).elim fun _ _ _ h => .mk _ h
  | debug descriptor offset length =>
    dsimp only
    exact (h.probe p descriptor offset length).elim fun _ _ _ h => .mk _ h

theorem dispatch (h : u.Alike v) (caller : Pid) (number : Nat) (block : Block) :
    Both Alike (u.dispatch p caller number block) (v.dispatch p caller number block) := by
  unfold World.dispatch World.failCommand
  cases CommandCode.ofNumber? number with
  | none => exact .mk _ (h.log _)
  | some code =>
    dsimp only
    split
    · exact .mk _ ((h.log _).log _)
    · refine (h.execute p caller block).elim fun answer u v h => ?_
      rcases answer with (e | filled) | waiter
      · exact .mk _ (h.log _)
      · exact .mk _ h
      · exact .mk _ h

end Alike

end World

/-! ## Systems -/

namespace System

/-- Worlds that are alike, and the same references in the hands of callers. -/
structure Alike (s t : System ε) : Prop where
  world : s.world.Alike t.world
  held : s.held = t.held

/-- A call leaves systems alike. -/
theorem Alike.perform {s t : System ε} (h : s.Alike t) (c : Call) :
    (s.perform p c).Alike (t.perform p c) := by
  obtain ⟨u, held⟩ := s
  obtain ⟨v, held'⟩ := t
  obtain ⟨hw, rfl⟩ : u.Alike v ∧ held = held' := ⟨h.world, h.held⟩
  cases c with
  | map owner address length => exact ⟨(hw.map p owner address length).snd, rfl⟩
  | acquire handle =>
    unfold System.perform
    dsimp only
    refine (hw.acquire handle).elim fun answer u v hw => ?_
    cases answer <;> exact ⟨hw, rfl⟩
  | release handle =>
    unfold System.perform
    dsimp only
    split
    · exact ⟨hw.put p handle, rfl⟩
    · exact ⟨hw, rfl⟩
  | info handle capacity => exact ⟨(hw.info p handle capacity).snd, rfl⟩
  | teardown handle cause => exact ⟨(hw.teardown p handle cause).snd, rfl⟩
  | copyAsync order => exact ⟨(hw.copyAsync p order).snd, rfl⟩
  | copy order => exact ⟨(hw.copy p order).snd, rfl⟩
  | wait task => exact ⟨(hw.wait task).snd, rfl⟩
  | cleanup task => exact ⟨(hw.cleanup p task).snd, rfl⟩
  | checkFile descriptor => exact ⟨(hw.checkFile p descriptor).snd, rfl⟩
  | probe descriptor offset length => exact ⟨(hw.probe p descriptor offset length).snd, rfl⟩
  | dispatch caller number block => exact ⟨(hw.dispatch p caller number block).snd, rfl⟩
  | evict handle => exact ⟨(hw.evict p handle).snd, rfl⟩
  | land token => exact ⟨hw.land p token, rfl⟩

end System

/-- New instances that are configured alike, but for their shards, are alike. -/
theorem World.alike_fresh {placement placement' : Placement} {config config' : Config} (x : ε)
    (hpage : config.hostPageSize = config'.hostPageSize)
    (hbound : config.boundShift = config'.boundShift) :
    (World.fresh placement config x).Alike (.fresh placement' config' x) where
  pageSize := hpage
  mappings := ⟨.empty _ _ _ _, rfl, rfl, rfl, congrArg (1 <<< ·) hbound, rfl⟩
  tasks := ⟨.empty _ _ _ _, rfl, rfl, rfl⟩
  flights := rfl
  parking := rfl
  ambient := ⟨rfl, List.cons_ne_nil _ _, List.cons_ne_nil _ _, rfl⟩

end PeerDma
