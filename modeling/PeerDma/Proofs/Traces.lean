import PeerDma.Proofs.Notices
import PeerDma.Proofs.Waiters

/-!
# What runs begin

Three kinds of calls begin something: a map, which is listed as pending while it lasts and may end
with a new region, a request, which is admitted or rejected, and a notice that takes a region back.
All that other operations do, the ends of tasks and of submissions included, carries on what has
been begun.

* `World.Continues`: what carries on. Every operation does, maps, requests and notices apart.
* `World.Makes`, `System.makes_perform`: what a call begins. No map outlasts its call.
* `Trace`, `Trace.requests`: the calls of a run, and how many requests there are among them.
* `Reach.covered`: the regions of a run are covered by their page tables.
-/

namespace PeerDma

variable {ε : Type}

/-- The requests so far. -/
def Tasks.requests (t : Tasks) : Nat := t.stats.admitted + t.stats.rejected

/-- The regions that are registered or draining. -/
inductive Mappings.Lists (m : Mappings) : Region → Prop where
  | registered {h : Handle} {u : RegionUse} (found : m.table.find? h = some u) : Lists m u.region
  | draining {h : Handle} {u : RegionUse} (found : m.draining.find? h = some u) : Lists m u.region

/-- Whether a parked call is that of a notice. -/
def Sleeper.isNotice (s : Sleeper) : Bool :=
  match s.rest with
  | .eviction _ => true
  | _ => false

/-- The notices that wait. -/
def Parking.notices (k : Parking) : List Sleeper := k.sleepers.filter Sleeper.isNotice

/-- The evictions so far, with the notices that wait. -/
def Core.evictions (c : Core) : Nat := c.mappings.stats.evicted + c.parking.notices.length

/-! ## Regions that stay or go -/

namespace Mappings

variable {m m' : Mappings} {h : Handle} {u u' : RegionUse} {r : Region}

namespace Lists

/-- One region more is registered, or one registered region changes. -/
theorem of_insert (hl : Lists { m with table := m.table.insert h u } r) :
    r = u.region ∨ m.Lists r := by
  cases hl with
  | registered found =>
    dsimp only at found
    rw [Sharded.find?_insert] at found
    split at found
    · exact .inl (congrArg RegionUse.region (Option.some.inj found).symm)
    · exact .inr (.registered found)
  | draining found => exact .inr (.draining found)

theorem of_erase (hl : Lists { m with table := m.table.erase h } r) : m.Lists r := by
  cases hl with
  | registered found =>
    dsimp only at found
    rw [Sharded.find?_erase] at found
    split at found
    · cases found
    · exact .registered found
  | draining found => exact .draining found

/-- One region more is draining, or one draining region changes. -/
theorem of_insert_draining (hl : Lists { m with draining := m.draining.insert h u } r) :
    r = u.region ∨ m.Lists r := by
  cases hl with
  | registered found => exact .inr (.registered found)
  | draining found =>
    dsimp only at found
    rw [Table.find?_insert] at found
    split at found
    · exact .inl (congrArg RegionUse.region (Option.some.inj found).symm)
    · exact .inr (.draining found)

theorem congr (hl : m'.Lists r) (ht : m'.table = m.table) (hd : m'.draining = m.draining) :
    m.Lists r := by
  cases hl with
  | registered found => exact .registered (ht ▸ found)
  | draining found => exact .draining (hd ▸ found)

theorem of_forget (hl : (m.forget h).Lists r) : m.Lists r := by
  cases hl with
  | registered found => exact .registered found
  | draining found =>
    replace found : (m.draining.erase h).find? _ = some _ := found
    rw [Table.find?_erase] at found
    split at found
    · cases found
    · exact .draining found

end Lists

/-- What leads from `m` to `m'` leaves the same maps in progress, lists no new region and counts no
eviction. -/
structure Keeps (m m' : Mappings) : Prop where
  pending : m'.pendingHandles = m.pendingHandles
  regions : ∀ r, m'.Lists r → m.Lists r
  evicted : m'.stats.evicted = m.stats.evicted

namespace Keeps

theorem forget (m : Mappings) (h : Handle) : Keeps m (m.forget h) :=
  ⟨rfl, fun _ => Lists.of_forget, rfl⟩

theorem replaces (hr : Replaces m m' h u u') (hregion : u'.region = u.region) : Keeps m m' := by
  obtain ⟨hf, rfl⟩ | ⟨-, hf, rfl⟩ := hr.cases
  · refine ⟨rfl, fun r hl => hl.of_insert.elim (fun he => ?_) id, rfl⟩
    rw [he, hregion]
    exact .registered hf
  · refine ⟨rfl, fun r hl => hl.of_insert_draining.elim (fun he => ?_) id, rfl⟩
    rw [he, hregion]
    exact .draining hf

theorem detach (hd : m.detach? h = some (u, m')) : Keeps m m' := by
  obtain ⟨-, rfl⟩ := detach?_eq_some hd
  exact ⟨rfl, fun _ => Lists.of_erase, rfl⟩

/-- A region leaves the table and waits for its users. -/
theorem park (hd : m.detach? h = some (u, m')) (slot : WaitSlot) :
    Keeps m (m'.drain { u with slot }) := by
  obtain ⟨hf, rfl⟩ := detach?_eq_some hd
  refine ⟨rfl, fun r hl => ?_, rfl⟩
  rcases hl.of_insert_draining with he | hl
  · exact he ▸ .registered (u := u) hf
  · exact hl.of_erase

end Keeps

/-- Parked calls that come back count as evictions if they are notices. -/
theorem forgetAll (l : List Sleeper) (m : Mappings) :
    (l.foldl (fun m s => s.rest.forget m) m).pendingHandles = m.pendingHandles ∧
      (∀ r, (l.foldl (fun m s => s.rest.forget m) m).Lists r → m.Lists r) ∧
      (l.foldl (fun m s => s.rest.forget m) m).stats.evicted =
        m.stats.evicted + (l.filter Sleeper.isNotice).length := by
  induction l generalizing m with
  | nil => exact ⟨rfl, fun _ => id, rfl⟩
  | cons s rest ih =>
    obtain ⟨waiter, displaced, reason⟩ := s
    obtain ⟨hpending, hregions, hevicted⟩ := ih (reason.forget m)
    cases reason with
    | teardown r cause =>
      exact ⟨hpending, fun r hr => (hregions r hr).of_forget, hevicted⟩
    | eviction r =>
      refine ⟨hpending, fun r' hr => Lists.of_forget (h := r.handle) ?_, hevicted.trans ?_⟩
      · exact (hregions r' hr).congr (m := m.forget r.handle) rfl rfl
      · exact Nat.succ_add_eq_add_succ ..
    | wait => exact ⟨hpending, hregions, hevicted⟩
    | copy task => exact ⟨hpending, hregions, hevicted⟩

end Mappings

/-! ## Carrying on -/

namespace World

variable (p : Platform ε)

/-- What leads from `w` to `w'` leaves the same maps in progress, takes no request, lists no new
region, lets no new notice wait and counts no eviction but those of notices that waited. -/
structure Continues (w w' : World ε) : Prop where
  pending : w'.core.mappings.pendingHandles = w.core.mappings.pendingHandles
  requests : w'.core.tasks.requests = w.core.tasks.requests
  regions : ∀ r, w'.core.mappings.Lists r → w.core.mappings.Lists r
  notices : w'.core.parking.notices ⊆ w.core.parking.notices
  evictions : w'.core.evictions ≤ w.core.evictions

namespace Continues

variable {w w' w'' : World ε}

theorem refl (w : World ε) : Continues w w :=
  ⟨rfl, rfl, fun _ => id, List.Subset.refl _, Nat.le_refl _⟩

theorem trans (h : Continues w w') (h' : Continues w' w'') : Continues w w'' where
  pending := h'.pending.trans h.pending
  requests := h'.requests.trans h.requests
  regions r hr := h.regions r (h'.regions r hr)
  notices := List.Subset.trans h'.notices h.notices
  evictions := h'.evictions.trans h.evictions

/-- Only tasks, submissions and the surroundings change. -/
theorem of_tasks (hm : w'.core.mappings = w.core.mappings) (hk : w'.core.parking = w.core.parking)
    (ht : w'.core.tasks.requests = w.core.tasks.requests) : Continues w w' where
  pending := by rw [hm]
  requests := ht
  regions := by rw [hm]; exact fun _ => id
  notices := by rw [hk]; exact List.Subset.refl _
  evictions := by unfold Core.evictions; rw [hm, hk]

/-- Only the surroundings change. -/
theorem of_core (h : w'.core = w.core) : Continues w w' := of_tasks (by rw [h]) (by rw [h]) (by rw [h])

/-- Only regions change. -/
theorem of_mappings {m : Mappings} (h : w'.core = { w.core with mappings := m })
    (hk : w.core.mappings.Keeps m) : Continues w w' where
  pending := by rw [h]; exact hk.pending
  requests := by rw [h]
  regions := by rw [h]; exact hk.regions
  notices := by rw [h]; exact List.Subset.refl _
  evictions := by
    unfold Core.evictions
    rw [h]
    exact Nat.le_of_eq (congrArg (· + _) hk.evicted)

theorem foldl {α : Type} {f : World ε → α → World ε} (h : ∀ w x, Continues w (f w x)) (xs : List α)
    (w : World ε) : Continues w (xs.foldl f w) := by
  induction xs generalizing w with
  | nil => exact refl w
  | cons x rest ih => exact (h w x).trans (ih _)

theorem note (w : World ε) (e : Event) : Continues w (w.note e) := of_core rfl

theorem log (w : World ε) (e : Log.Entry) : Continues w (w.log e) := of_core rfl

theorem log? (w : World ε) (e : Option Log.Entry) : Continues w (w.log? e) := by
  cases e with
  | none => exact refl w
  | some e => exact log w e

theorem setMappings (w : World ε) {m : Mappings} (hk : w.core.mappings.Keeps m) :
    Continues w (w.setMappings m) :=
  of_mappings rfl hk

theorem setTasks (w : World ε) {t : Tasks} (h : t.requests = w.core.tasks.requests) :
    Continues w (w.setTasks t) :=
  of_tasks rfl rfl h

theorem setFlights (w : World ε) (flights : Flights) : Continues w (w.setFlights flights) :=
  of_tasks rfl rfl rfl

/-- A call is parked that is not that of a notice. -/
theorem park (w : World ε) (k : Parking) {s : Sleeper} (hk : k.sleepers = w.core.parking.sleepers)
    (hs : s.isNotice = false) : Continues w (w.setParking (k.park s)) := by
  have hnotices : (k.park s).notices = w.core.parking.notices := by
    unfold Parking.notices Parking.park
    rw [List.filter_append, hk, List.filter_cons_of_neg (by simp [hs])]
    exact List.append_nil _
  refine ⟨rfl, rfl, fun _ => id, ?_, ?_⟩
  · exact hnotices ▸ List.Subset.refl _
  · exact Nat.le_of_eq (congrArg (_ + List.length ·) hnotices)

/-! ### Regions -/

theorem unpinRegion (r : Region) (cause : Cause) (w : World ε) :
    Continues w (w.unpinRegion p r cause) :=
  of_mappings (unpinRegion_core p r cause w) (.forget _ _)

theorem resumeAll_core (l : List Sleeper) (w : World ε) :
    (l.foldl (fun w s => w.resume p s) w).core =
      { w.core with mappings := l.foldl (fun m s => s.rest.forget m) w.core.mappings } := by
  induction l generalizing w with
  | nil => rfl
  | cons s rest ih =>
    rw [List.foldl_cons, ih, resume_core]
    rfl

/-- The notices that come back do not wait any more. -/
theorem wake (waiter : Waiter) (w : World ε) : Continues w (w.wake p waiter) := by
  have hcore : (w.wake p waiter).core = _ :=
    resumeAll_core p (rouse waiter w.core.parking.sleepers).1 (w.unpark waiter)
  obtain ⟨hpending, hregions, hevicted⟩ :=
    Mappings.forgetAll (rouse waiter w.core.parking.sleepers).1 (w.unpark waiter).core.mappings
  have hsub := (rouse_subperm waiter w.core.parking.sleepers).filter Sleeper.isNotice
  rw [List.filter_append] at hsub
  refine ⟨?_, ?_, ?_, ?_, ?_⟩
  · rw [hcore]
    exact hpending
  · rw [hcore]
    rfl
  · rw [hcore]
    exact hregions
  · rw [hcore]
    exact List.Subset.trans (List.subset_append_right _ _) hsub.subset
  · unfold Core.evictions
    rw [hcore, show _ = _ + _ from hevicted, Nat.add_assoc]
    refine Nat.add_le_add_left ?_ _
    rw [← List.length_append]
    exact hsub.length_le

theorem wake? (waiter : Option Waiter) (w : World ε) : Continues w (w.wake? p waiter) := by
  cases waiter with
  | none => exact refl w
  | some waiter => exact wake p waiter w

theorem put (h : Handle) (w : World ε) : Continues w (w.put p h) := by
  unfold World.put
  rcases hp : w.core.mappings.put? h with _ | ⟨woken, m⟩
  · exact log w _
  · obtain ⟨u, u', hput, hr⟩ := Mappings.put?_eq_some hp
    have hregion := (RegionUse.put?_eq_some hput).2.1
    exact (setMappings w (.replaces hr hregion)).trans (wake? p woken _)

theorem acquire (h : Handle) (w : World ε) : Continues w (w.acquire h).2 := by
  unfold World.acquire
  rcases ha : w.core.mappings.acquire? h with _ | ⟨use, m⟩
  · exact log w _
  · obtain ⟨u, rfl, hr⟩ := Mappings.acquire?_replaces ha
    exact setMappings w (.replaces hr rfl)

theorem teardown (h : Handle) (cause : Cause) (w : World ε) :
    Continues w (w.teardown p h cause).2 := by
  have hdetach : Continues w
      (w.detach h (fun r w => w.unpinRegion p r cause) (.teardown · cause)).2 := by
    unfold World.detach
    rcases hd : w.core.mappings.detach? h with _ | ⟨use, m⟩
    · exact refl w
    · dsimp only
      split
      · exact (setMappings w (.detach hd)).trans (unpinRegion p use.region cause _)
      · refine ((setMappings w (.park hd ⟨some w.core.parking.fresh.1⟩)).trans ?_).trans (log _ _)
        exact park _ w.core.parking.fresh.2 rfl rfl
  unfold World.teardown
  generalize w.detach h (fun r w => w.unpinRegion p r cause) (.teardown · cause) = answer
    at hdetach ⊢
  obtain ⟨(e | _) | waiter, w'⟩ := answer
  · exact hdetach.trans (log _ _)
  · exact hdetach
  · exact hdetach

theorem info (h : Handle) (capacity : Nat) (w : World ε) : Continues w (w.info p h capacity).2 := by
  have hacquire := acquire h w
  unfold World.info
  generalize w.acquire h = answer at hacquire ⊢
  obtain ⟨e | use, w'⟩ := answer
  · exact hacquire
  · exact hacquire.trans (put p h w')

/-! ### Tasks -/

theorem releaseAll (pins : List PinSet) (w : World ε) : Continues w (w.releaseAll p pins) :=
  of_core rfl

theorem cleanup (id : TaskId) (w : World ε) : Continues w (w.cleanup p id).2 := by
  unfold World.cleanup
  rcases hr : w.core.tasks.remove? id with _ | ⟨task, tasks⟩
  · exact log w _
  · obtain ⟨-, rfl⟩ := Tasks.remove?_eq_some hr
    have hput := (setTasks w (t := { w.core.tasks with
      table := w.core.tasks.table.erase id }) rfl).trans (put p task.holds.region.handle _)
    exact ((hput.trans (releaseAll p _ _)).trans (wake? p _ _)).trans (log _ _)

theorem cleanupAll (ids : List TaskId) (w : World ε) : Continues w (w.cleanupAll p ids) :=
  foldl (fun w id => cleanup p id w) ids w

theorem finish (id : TaskId) (w : World ε) : Continues w (w.finish p id) := by
  have hcount : Continues w (w.setTasks (w.core.tasks.finish id).2) := by
    refine setTasks w ?_
    rw [Tasks.requests, Tasks.stats_finish]
    rfl
  unfold World.finish
  dsimp only
  split
  · exact hcount.trans (cleanup p id _)
  · exact hcount

theorem land (token : Token) (w : World ε) : Continues w (w.land p token) := by
  unfold World.land
  rcases w.core.flights.land? token with _ | ⟨f, flights⟩
  · exact refl w
  · exact ((setFlights w flights).trans (note _ _)).trans (finish p f.task _)

theorem landAll (tokens : List Token) (w : World ε) : Continues w (w.landAll p tokens) :=
  foldl (fun w token => land p token w) tokens w

theorem submit (id : TaskId) (run : Run) (w : World ε) : Continues w (w.submit p id run).2 := by
  have hoffer : Continues w ((w.offer id run).setOutside (w.submitAnswer p run).2) :=
    of_tasks rfl rfl rfl
  have hoffered : Continues w (w.offered p id run) := hoffer.trans (cleanupAll p _ _)
  rw [submit_eq]
  cases (w.submitAnswer p run).1.verdict with
  | ok => exact (hoffered.trans (note _ _)).trans (landAll p _ _)
  | error e => exact hoffered.trans (landAll p _ _)

theorem feed (id : TaskId) (runs : List Run) (w : World ε) :
    Continues w (Sink.feed (fun run w => w.submit p id run) runs w).2 := by
  induction runs generalizing w with
  | nil => exact refl w
  | cons run rest ih =>
    have hsubmit := submit p id run w
    rw [Sink.feed]
    generalize w.submit p id run = answer at hsubmit ⊢
    obtain ⟨e | _, w'⟩ := answer
    · exact hsubmit
    · exact hsubmit.trans (ih w')

theorem submitAll (task : Task) (r : Region) (extents : List Extent) (w : World ε) :
    Continues w (w.submitAll p task r extents).2 := by
  unfold World.submitAll
  dsimp only
  rw [Cursor.drive_eq_feed]
  generalize (Cursor.mk r.layout task.start none).drive collect extents [] = plan
  obtain ⟨answer, runs⟩ := plan
  have hfeed := feed p task.id runs.reverse w
  dsimp only
  generalize Sink.feed (fun run w => w.submit p task.id run) runs.reverse w = fed at hfeed ⊢
  obtain ⟨e | _, w'⟩ := fed
  · exact hfeed.trans (log _ _)
  · cases answer with
    | ok => exact hfeed
    | error stop =>
      refine hfeed.trans ?_
      cases stop with
      | refused reason => exact reason.elim
      | outside position => exact (log _ _).trans (log _ _)

/-! ### Sources -/

theorem pinHost (address count : Nat) (w : World ε) : Continues w (w.pinHost p address count).2 := by
  have hclean : Continues w (World.cleanupAll p (p.pinHost address count w.ambient.outside).1.cleanups
      (w.setOutside (p.pinHost address count w.ambient.outside).2)) := by
    refine .trans ?_ (cleanupAll p _ _)
    exact of_core rfl
  unfold World.pinHost
  dsimp only
  cases (p.pinHost address count w.ambient.outside).1.pages with
  | error e => exact hclean
  | ok pages => exact hclean.trans (of_core rfl)

theorem resolveHost (pageSize address length : Nat) (w : World ε) :
    Continues w (w.resolveHost p pageSize address length).2 := by
  unfold World.resolveHost
  cases Word.add? address length with
  | none => exact refl w
  | some stop =>
    dsimp only
    generalize Word.alignDown address pageSize = first
    generalize Word.ceilDiv (stop - first) pageSize = count
    have hpin := pinHost p first count w
    generalize w.pinHost p first count = answer at hpin ⊢
    obtain ⟨e | pages, w'⟩ := answer
    · exact hpin
    · dsimp only
      split
      · exact hpin.trans (of_core rfl)
      · exact hpin

theorem resolve (file : Option File) (chunks : List Chunk) (w : World ε) :
    Continues w (w.resolve p file chunks).2 := by
  induction chunks generalizing w with
  | nil => exact refl w
  | cons chunk rest ih =>
    have hchunk : Continues w (w.resolveChunk p file chunk).2 := by
      cases chunk with
      | host address length => exact resolveHost p _ address length w
      | file offset length => exact of_core rfl
    rw [World.resolve]
    generalize w.resolveChunk p file chunk = answer at hchunk ⊢
    obtain ⟨e | ⟨extents, pins⟩, w₁⟩ := answer
    · exact hchunk
    · have hrest := hchunk.trans (ih w₁)
      dsimp only
      generalize w₁.resolve p file rest = answer at hrest ⊢
      obtain ⟨stop | ⟨more, others⟩, w₂⟩ := answer <;> exact hrest

/-! ### Requests that have been admitted -/

theorem retain (id : TaskId) (pins : List PinSet) (w : World ε) :
    Continues w (w.retain p id pins) := by
  unfold World.retain
  cases hr : w.core.tasks.retain? id pins with
  | none => exact releaseAll p pins w
  | some tasks =>
    obtain ⟨task, -, rfl⟩ := Tasks.retain?_eq_some hr
    exact setTasks w rfl

theorem launch (task : Task) (w : World ε) : Continues w (w.launch p task).2 := by
  unfold World.launch
  cases w.core.tasks.table.find? task.id with
  | none => exact log w _
  | some registered =>
    have hresolve := resolve p registered.holds.file task.chunks w
    dsimp only
    generalize w.resolve p registered.holds.file task.chunks = answer at hresolve ⊢
    obtain ⟨stop | ⟨extents, pins⟩, w₁⟩ := answer
    · exact hresolve.trans ((log _ _).trans ((releaseAll p _ _).trans (cleanup p _ _)))
    · exact hresolve.trans ((retain p _ pins w₁).trans ((log _ _).trans
        ((submitAll p _ _ _ _).trans (finish p _ _))))

theorem await (id : TaskId) {rest : Rest} (hr : rest.region? = none) (w : World ε) :
    Continues w (w.await id rest).2 := by
  unfold World.await
  dsimp only
  rcases hi : w.core.tasks.install? id w.core.parking.fresh.1 with _ | ⟨displaced, tasks⟩
  · exact refl w
  · have hrequests : tasks.requests = w.core.tasks.requests := by
      obtain ⟨task, -, -, rfl⟩ := Tasks.install?_eq_some hi
      rfl
    refine (setTasks w hrequests).trans (park _ w.core.parking.fresh.2 rfl ?_)
    unfold Sleeper.isNotice
    cases rest with
    | eviction r => cases hr
    | _ => rfl

theorem prepare (order : CopyOrder) (w : World ε) : Continues w (w.prepare p order).2 := by
  unfold World.prepare
  rcases Chunk.totalLength order.chunks with fault | length
  · exact log? w _
  dsimp only
  have hacquire := acquire order.handle w
  generalize w.acquire order.handle = answer at hacquire ⊢
  obtain ⟨e | use, w₁⟩ := answer
  · exact hacquire
  simp only [World.window]
  rcases use.region.window order.offset length with fault | start
  · exact hacquire.trans ((log? _ _).trans (put p _ _))
  dsimp only
  have hcore := (@Moves.sourceFile _ p True order w₁ {}).2
  generalize w₁.sourceFile p order = answer at hcore ⊢
  obtain ⟨e | file, w₂⟩ := answer
  · exact hacquire.trans ((of_core hcore).trans (put p _ _))
  · exact hacquire.trans ((of_core hcore).trans (of_tasks rfl rfl rfl))

/-! ### Files -/

theorem checkFile (descriptor : Int) (w : World ε) : Continues w (w.checkFile p descriptor).2 := by
  exact of_core rfl

theorem probe (descriptor : Int) (offset length : Nat) (w : World ε) :
    Continues w (w.probe p World.logProbe descriptor offset length).2 := by
  unfold World.probe liftAmbient
  dsimp only
  generalize w.ambient.openChecked p w.core.config.hostPageSize descriptor = answer
  obtain ⟨e | file, a⟩ := answer <;> exact of_core rfl

end Continues

/-! ## What begins -/

/-- What leads from `w` to `w'` leaves the same maps in progress and makes `n` requests, and no more
than `k` evictions. New regions are covered by their page tables. -/
structure Makes (n k : Nat) (w w' : World ε) : Prop where
  pending : w'.core.mappings.pendingHandles = w.core.mappings.pendingHandles
  requests : w'.core.tasks.requests = w.core.tasks.requests + n
  regions : ∀ r, w'.core.mappings.Lists r → w.core.mappings.Lists r ∨ r.Covered
  notices : k = 0 → w'.core.parking.notices ⊆ w.core.parking.notices
  evictions : w'.core.evictions ≤ w.core.evictions + k

variable {p}

theorem Continues.makes {w w' : World ε} (h : Continues w w') : Makes 0 0 w w' :=
  ⟨h.pending, h.requests, fun r hr => .inl (h.regions r hr), fun _ => h.notices, h.evictions⟩

theorem Makes.trans {n k : Nat} {w w' w'' : World ε} (h : Makes n k w w') (h' : Continues w' w'') :
    Makes n k w w'' where
  pending := h'.pending.trans h.pending
  requests := h'.requests.trans h.requests
  regions r hr := h.regions r (h'.regions r hr)
  notices hk := List.Subset.trans h'.notices (h.notices hk)
  evictions := h'.evictions.trans h.evictions

theorem Continues.makes_trans {n k : Nat} {w w' w'' : World ε} (h : Continues w w')
    (h' : Makes n k w' w'') : Makes n k w w'' where
  pending := h'.pending.trans h.pending
  requests := h'.requests.trans (congrArg (· + n) h.requests)
  regions r hr := (h'.regions r hr).imp_left (h.regions r)
  notices hk := List.Subset.trans (h'.notices hk) h.notices
  evictions := h'.evictions.trans (Nat.add_le_add_right h.evictions k)

variable (p)

/-- A request is admitted or rejected, once. -/
theorem makes_copyAsync (order : CopyOrder) (w : World ε) : Makes 1 0 w (w.copyAsync p order).2 := by
  have hone {w : World ε} {t : Tasks} (ht : t.requests = w.core.tasks.requests + 1) :
      Makes 1 0 w (w.setTasks t) := ⟨rfl, ht, fun _ => .inl, fun _ => .refl _, Nat.le_refl _⟩
  have hprepare := Continues.prepare p order w
  unfold World.copyAsync
  generalize w.prepare p order = answer at hprepare ⊢
  obtain ⟨e | task, w₁⟩ := answer
  · exact hprepare.makes_trans (hone rfl)
  · have henroll : Makes 1 0 w₁
        ((w₁.setTasks (w₁.core.tasks.register task)).log (.admitted task.id)) :=
      (hone (Nat.add_right_comm ..)).trans (.log _ _)
    have hlaunch := hprepare.makes_trans (henroll.trans (Continues.launch p task _))
    dsimp only
    generalize World.launch p task _ = answer at hlaunch ⊢
    obtain ⟨e | _, w₂⟩ := answer <;> exact hlaunch

theorem makes_copy (order : CopyOrder) (w : World ε) : Makes 1 0 w (w.copy p order).2 := by
  have hcopy := makes_copyAsync p order w
  unfold World.copy
  generalize w.copyAsync p order = answer at hcopy ⊢
  obtain ⟨e | id, w'⟩ := answer
  · exact hcopy
  · have hawait := hcopy.trans (Continues.await id (show (Rest.copy id).region? = none from rfl) w')
    dsimp only
    generalize w'.await id (.copy id) = answer at hawait ⊢
    obtain ⟨value | waiter, w₁⟩ := answer <;> exact hawait

/-- A map counts as an eviction if it loses its range. -/
theorem evictions_map (owner : Pid) (address : GpuAddr) (length : Nat) {w : World ε}
    (hw : w.core.mappings.pendingHandles = []) :
    (w.map p owner address length).2.core.evictions =
      w.core.evictions + (w.losesMap p owner address length).toNat := by
  obtain ⟨handles, m, hcore, hends⟩ :=
    map_core p owner address length (Mappings.pending_eq_nil hw)
  rw [hcore]
  generalize w.losesMap p owner address length = lost at hends ⊢
  cases hends with
  | failed => rfl
  | lost => exact Nat.add_right_comm ..
  | entered r covered => rfl

/-- A map ends before it returns. -/
theorem makes_map (owner : Pid) (address : GpuAddr) (length : Nat) {w : World ε}
    (hw : w.core.mappings.pendingHandles = []) :
    Makes 0 (w.losesMap p owner address length).toNat w (w.map p owner address length).2 := by
  have hevictions := Nat.le_of_eq (evictions_map p owner address length hw)
  obtain ⟨handles, m, hcore, hends⟩ :=
    map_core p owner address length (Mappings.pending_eq_nil hw)
  have hmakes (hpending : m.pendingHandles = w.core.mappings.pendingHandles)
      (hregions : ∀ r, m.Lists r → w.core.mappings.Lists r ∨ r.Covered) :
      Makes 0 (w.losesMap p owner address length).toNat w (w.map p owner address length).2 :=
    ⟨by rw [hcore]; exact hpending, by rw [hcore]; rfl, by rw [hcore]; exact hregions,
      fun _ => by rw [hcore]; exact .refl _, hevictions⟩
  clear hevictions
  generalize w.losesMap p owner address length = lost at hends hmakes ⊢
  cases hends with
  | failed => exact hmakes rfl fun _ hl => .inl (hl.congr rfl rfl)
  | lost => exact hmakes rfl fun _ hl => .inl (hl.congr rfl rfl)
  | entered r covered =>
    refine hmakes rfl fun other hl => ?_
    rcases Mappings.Lists.of_insert (m := w.core.mappings) (hl.congr rfl rfl) with rfl | hl
    · exact .inr covered
    · exact .inl hl

/-- A notice that meets a registered region counts as an eviction, at once or when it comes back. -/
theorem evictions_evict (h : Handle) {w : World ε} (hw : w.core.mappings.pendingHandles = []) :
    (w.evict p h).2.core.evictions =
      w.core.evictions + (w.core.mappings.table.contains h).toNat := by
  rcases hf : w.core.mappings.table.find? h with _ | use
  · have hd : w.core.mappings.detach? h = none := Option.map_eq_none_iff.2 hf
    rw [evict_unlisted p (hw ▸ List.not_mem_nil) hd, Sharded.contains, hf]
    rfl
  · rw [evict_core p hw hf, Sharded.contains, hf]
    split
    · exact Nat.add_right_comm ..
    · have hparked : (w.parkTeardown use { w.core.mappings with
          table := w.core.mappings.table.erase h } (.eviction use.region)).core.parking.notices =
          w.core.parking.notices ++ [⟨w.core.parking.fresh.1, use.slot.occupant, .eviction _⟩] :=
        List.filter_append ..
      unfold Core.evictions
      rw [hparked, List.length_append, ← Nat.add_assoc]
      rfl

theorem makes_evict (h : Handle) {w : World ε} (hw : w.core.mappings.pendingHandles = []) :
    Makes 0 (w.core.mappings.table.contains h).toNat w (w.evict p h).2 := by
  have hevictions := Nat.le_of_eq (evictions_evict p h hw)
  rcases hf : w.core.mappings.table.find? h with _ | use
  · have hd : w.core.mappings.detach? h = none := Option.map_eq_none_iff.2 hf
    have hlog := (Continues.log w (.evictionAfterRelease h)).makes
    rw [evict_unlisted p (hw ▸ List.not_mem_nil) hd] at hevictions ⊢
    exact { hlog with notices := fun _ => hlog.notices rfl, evictions := hevictions }
  · have hone : (w.core.mappings.table.contains h).toNat = 1 := by simp [Sharded.contains, hf]
    refine ⟨?_, ?_, fun r hr => .inl ?_, fun hk => by omega, hevictions⟩ <;>
      rw [evict_core p hw hf] at *
    · split <;> rfl
    · split <;> rfl
    · split at hr
      · exact Mappings.Lists.of_erase (Mappings.Lists.of_forget (hr.congr rfl rfl))
      · have hd : w.core.mappings.detach? h =
            some (use, { w.core.mappings with table := w.core.mappings.table.erase h }) := by
          unfold Mappings.detach?
          rw [hf]
          rfl
        exact (Mappings.Keeps.park hd ⟨some w.core.parking.fresh.1⟩).regions r hr

end World

/-! ## Calls -/

/-- Whether a block makes a request. -/
def Block.isRequest : Block → Bool
  | .copy b => b.order.isOk
  | .copyAsync b => b.order.isOk
  | _ => false

/-- Whether the call makes a request. -/
def Call.isRequest : Call → Bool
  | .copyAsync _ => true
  | .copy _ => true
  | .dispatch _ number block => CommandCode.ofNumber? number == some block.code && block.isRequest
  | _ => false

/-- The map that the call makes. -/
def Call.map? : Call → Option (Pid × GpuAddr × Nat)
  | .map owner address length => some (owner, address, length)
  | .dispatch caller number (.map b) =>
    if CommandCode.ofNumber? number = some (Block.map b).code then
      some (caller, ⟨b.address⟩, b.length)
    else none
  | _ => none

namespace System

/-- Whether the call is a map that loses its range to the device. -/
def losesRange (p : Platform ε) (c : Call) (s : System ε) : Bool :=
  c.map?.any fun (owner, address, length) => s.world.losesMap p owner address length

/-- The region that the call takes back, if it is a notice that meets a registered region. -/
def takesBack? (c : Call) (s : System ε) : Option Handle :=
  match c with
  | .evict h => if s.world.core.mappings.table.contains h then some h else none
  | _ => none

/-- How many evictions the call begins. -/
def evictions (p : Platform ε) (c : Call) (s : System ε) : Nat :=
  (s.takesBack? c).isSome.toNat + (s.losesRange p c).toNat

variable (p : Platform ε) {c : Call} {s : System ε}

theorem takesBack?_eq_some_iff {r : Handle} : s.takesBack? c = some r ↔
    c = .evict r ∧ ∃ use, s.world.core.mappings.table.find? r = some use := by
  rw [← Option.isSome_iff_exists]
  unfold takesBack?
  split
  · next h =>
    by_cases hc : s.world.core.mappings.table.contains h
    · rw [if_pos hc, Option.some.injEq, Call.evict.injEq]
      exact ⟨fun he => ⟨he, he ▸ hc⟩, And.left⟩
    · rw [if_neg hc, Call.evict.injEq]
      refine ⟨fun he => absurd he.symm (Option.some_ne_none r), ?_⟩
      rintro ⟨rfl, hf⟩
      exact absurd hf hc
  · next hne =>
    refine ⟨fun he => absurd he.symm (Option.some_ne_none r), ?_⟩
    rintro ⟨rfl, -⟩
    exact absurd rfl (hne r)

theorem evictions_of_map? {owner : Pid} {address : GpuAddr} {length : Nat}
    (h : c.map? = some (owner, address, length)) :
    s.evictions p c = (s.world.losesMap p owner address length).toNat := by
  have hnothing : s.takesBack? c = none := by
    refine Option.eq_none_iff_forall_ne_some.2 fun r hr => ?_
    obtain ⟨rfl, -⟩ := takesBack?_eq_some_iff.1 hr
    cases h
  simp [evictions, losesRange, h, hnothing]

theorem evictions_of_evict (h : Handle) :
    s.evictions p (.evict h) = (s.world.core.mappings.table.contains h).toNat := by
  unfold evictions takesBack? losesRange
  dsimp only
  split <;> simp [Call.map?, *]

end System

namespace World

variable (p : Platform ε)

theorem makes_execute (caller : Pid) {block : Block} (hb : ∀ b, block ≠ .map b) (w : World ε) :
    Makes block.isRequest.toNat 0 w (w.execute p caller block).2 := by
  cases block with
  | checkFile descriptor => exact (Continues.checkFile p _ w).makes
  | map b => exact absurd rfl (hb b)
  | unmap handle => exact (Continues.teardown p _ _ w).makes
  | info b => exact (Continues.info p _ _ w).makes
  | wait task => exact (Continues.await _ rfl w).makes
  | debug descriptor offset length => exact (Continues.probe p _ _ _ w).makes
  | copy b =>
    unfold execute decodeCopy Block.isRequest
    dsimp only
    cases b.order with
    | error fault => exact (Continues.log? w _).makes
    | ok order => exact makes_copy p order w
  | copyAsync b =>
    unfold execute decodeCopy Block.isRequest
    dsimp only
    cases b.order with
    | error fault => exact (Continues.log? w _).makes
    | ok order => exact makes_copyAsync p order w

theorem makes_dispatch {caller : Pid} {number : Nat} {block : Block}
    (hmap : (Call.dispatch caller number block).map? = none) (w : World ε) :
    Makes (Call.dispatch caller number block).isRequest.toNat 0 w
      (w.dispatch p caller number block).2 := by
  unfold dispatch Call.isRequest
  dsimp only
  rcases hnumber : CommandCode.ofNumber? number with _ | code
  · exact (Continues.log w _).makes
  · by_cases hcode : code = block.code
    · have hb (b : MapBlock) : block ≠ .map b := by
        rintro rfl
        simp [Call.map?, hnumber, hcode] at hmap
      have hexecute := makes_execute p caller hb w
      simp only [hcode, ne_eq, not_true_eq_false, if_false, beq_self_eq_true, Bool.true_and]
      generalize w.execute p caller block = answer at hexecute ⊢
      obtain ⟨(e | after) | waiter, w'⟩ := answer
      · exact hexecute.trans (Continues.log _ _)
      · exact hexecute
      · exact hexecute
    · have hne : (some code == some block.code) = false := by simpa using hcode
      simp only [hne, ne_eq, hcode, not_false_eq_true, if_true, Bool.false_and]
      exact ((Continues.log w _).trans (Continues.log _ _)).makes

end World

/-- A command does to an instance what its operation does. -/
theorem World.dispatch_core (p : Platform ε) {caller : Pid} {number : Nat} {block : Block}
    (hcode : CommandCode.ofNumber? number = some block.code) (w : World ε) :
    (w.dispatch p caller number block).2.core = (w.execute p caller block).2.core := by
  unfold dispatch
  simp only [hcode, ne_eq, not_true_eq_false, if_false]
  generalize w.execute p caller block = answer
  obtain ⟨(e | after) | waiter, w'⟩ := answer <;> rfl

namespace System

variable (p : Platform ε)

/-- A call that makes a map does nothing else to the instance. -/
theorem perform_core_of_map? {c : Call} {owner : Pid} {address : GpuAddr} {length : Nat}
    (h : c.map? = some (owner, address, length)) (s : System ε) :
    c.isRequest = false ∧
      (s.perform p c).world.core = (s.world.map p owner address length).2.core := by
  cases c with
  | map owner address length =>
    obtain ⟨rfl, rfl, rfl⟩ : _ ∧ _ ∧ _ := by simpa [Call.map?] using h
    exact ⟨rfl, rfl⟩
  | dispatch caller number block =>
    cases block with
    | map b =>
      obtain ⟨hcode, rfl, rfl, rfl⟩ : _ ∧ _ ∧ _ ∧ _ := by simpa [Call.map?] using h
      refine ⟨by simp [Call.isRequest, Block.isRequest], ?_⟩
      exact World.dispatch_core p hcode s.world
    | _ => simp [Call.map?] at h
  | _ => simp [Call.map?] at h

/-- **What a call begins**, if it finds no map in progress: a map, which does not outlast it, or a
request, or an eviction, or nothing of these. -/
theorem makes_perform (c : Call) {s : System ε}
    (hs : s.world.core.mappings.pendingHandles = []) :
    World.Makes c.isRequest.toNat (s.evictions p c) s.world (s.perform p c).world := by
  rcases hmap : c.map? with _ | ⟨owner, address, length⟩
  · have hmakes {n : Nat} (h : World.Makes n 0 s.world (s.perform p c).world) :
        World.Makes n (s.evictions p c) s.world (s.perform p c).world :=
      { h with
        notices := fun _ => h.notices rfl, evictions := h.evictions.trans (Nat.le_add_right _ _) }
    obtain ⟨w, held⟩ := s
    cases c with
    | map owner address length => simp [Call.map?] at hmap
    | acquire h =>
      refine hmakes ?_
      have hacquire := (World.Continues.acquire h w).makes
      unfold perform
      dsimp only
      generalize w.acquire h = answer at hacquire ⊢
      obtain ⟨e | use, w'⟩ := answer <;> exact hacquire
    | release h =>
      refine hmakes ?_
      unfold perform
      dsimp only
      split
      · exact (World.Continues.put p h w).makes
      · exact (World.Continues.refl w).makes
    | info h capacity => exact hmakes (World.Continues.info p h capacity w).makes
    | teardown h cause => exact hmakes (World.Continues.teardown p h cause w).makes
    | copyAsync order => exact hmakes (World.makes_copyAsync p order w)
    | copy order => exact hmakes (World.makes_copy p order w)
    | wait task => exact hmakes (World.Continues.await task rfl w).makes
    | cleanup task => exact hmakes (World.Continues.cleanup p task w).makes
    | checkFile descriptor => exact hmakes (World.Continues.checkFile p _ w).makes
    | probe descriptor offset length => exact hmakes (World.Continues.probe p _ _ _ w).makes
    | dispatch caller number block => exact hmakes (World.makes_dispatch p hmap w)
    | evict h => exact evictions_of_evict (s := ⟨w, held⟩) p h ▸ World.makes_evict p h hs
    | land token => exact hmakes (World.Continues.land p token w).makes
  · obtain ⟨hrequest, hcore⟩ := perform_core_of_map? p hmap s
    rw [hrequest, evictions_of_map? p hmap]
    exact (World.makes_map p owner address length hs).trans (.of_core hcore)

end System

/-! ## Runs -/

variable {p : Platform ε}

/-- Between calls no map is in progress. -/
theorem Reach.pendingHandles {allowed : Call → Prop} {s : System ε} (h : Reach p allowed s) :
    s.world.core.mappings.pendingHandles = [] := by
  induction h with
  | start h =>
    obtain ⟨rfl, -⟩ := Ambient.start_ok h
    rfl
  | call before c h ih => exact (System.makes_perform p c ih).pending.trans ih
  | outside _ x ih => exact ih

/-- The regions that are registered or draining are covered by their page tables. -/
theorem Reach.covered {allowed : Call → Prop} {s : System ε} (h : Reach p allowed s) :
    ∀ r, s.world.core.mappings.Lists r → r.Covered := by
  induction h with
  | start h =>
    obtain ⟨rfl, -⟩ := Ambient.start_ok h
    intro r hr
    cases hr with
    | registered found => cases (Sharded.find?_empty ..).symm.trans found
    | draining found => cases found
  | call before c h ih =>
    exact fun r hr => ((System.makes_perform p c before.pendingHandles).regions r hr).elim (ih r) id
  | outside _ x ih => exact ih

/-- The systems that a run leads to, with the calls of the run, the last one first. -/
inductive Trace {ε : Type} (p : Platform ε) : List Call → System ε → Prop where
  | start {placement : Placement} {config : Config} {x : ε} {w : World ε}
      (h : Ambient.start placement config { outside := x } = (.ok w.core, w.ambient)) :
      Trace p [] { world := w }
  | call {calls : List Call} {s : System ε} (before : Trace p calls s) (c : Call) :
      Trace p (c :: calls) (s.perform p c)
  | outside {calls : List Call} {s : System ε} (before : Trace p calls s) (x : ε) :
      Trace p calls { s with world := s.world.setOutside x }

namespace Trace

variable {calls : List Call} {s : System ε}

theorem reach (h : Trace p calls s) {allowed : Call → Prop} (hc : ∀ c ∈ calls, allowed c) :
    Reach p allowed s := by
  induction h with
  | start h => exact .start h
  | call before c ih =>
    obtain ⟨hfirst, hrest⟩ := List.forall_mem_cons.1 hc
    exact .call (ih hrest) c hfirst
  | outside before x ih => exact .outside (ih hc) x

/-- Every request of a run has been admitted or rejected. -/
theorem requests (h : Trace p calls s) :
    s.world.core.tasks.requests = calls.countP Call.isRequest := by
  induction h with
  | start h =>
    obtain ⟨rfl, -⟩ := Ambient.start_ok h
    rfl
  | call before c ih =>
    have hreach : Reach p (fun _ => True) _ := before.reach fun _ _ => trivial
    rw [(System.makes_perform p c hreach.pendingHandles).requests, ih, List.countP_cons]
    cases c.isRequest <;> rfl
  | outside before x ih => exact ih

end Trace

end PeerDma
