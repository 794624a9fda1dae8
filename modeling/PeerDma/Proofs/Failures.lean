import PeerDma.Ledger
import PeerDma.Proofs.InFlight
import PeerDma.Proofs.Tokens

/-!
# Requests that fail

A request can fail at many points before its first submission: the request itself may be wrong, its
file may not be eligible, and each page that it reads from may turn out not to be there. By then it
has a reference to its region, perhaps a registered task, and page references for the pages before.
Whatever it has by then it gives back, and the request leaves nothing behind.

* `Ambient.Reads`, `World.Reads`: what looks at sources and changes nothing else.
* `World.FailsEarly`: the points at which a request fails before its first submission.
* `World.Spares`: what a request that fails leaves as it was.
* `Reach.failures_undone`: a request that fails before its first submission is undone.
-/

namespace PeerDma

variable {ε : Type}

/-! ## Looking at sources -/

/-- Whether an event is a line for the log, or about sources: an answer to a look-up, or page
references obtained or given back. -/
def Event.isReading : Event → Bool
  | logged _ => true
  | hostPinned .. => true
  | cacheHit .. => true
  | blockFound .. => true
  | released _ => true
  | _ => false

namespace Ambient

variable (p : Platform ε)

/-- What leads from `a` to `a'` looks at sources and writes to the log. -/
def Reads (a a' : Ambient ε) : Prop :=
  ∃ events, a'.history = events ++ a.history ∧ ∀ e ∈ events, e.isReading

namespace Reads

variable {a a' a'' : Ambient ε}

theorem refl (a : Ambient ε) : Reads a a := ⟨[], rfl, nofun⟩

theorem trans (h : Reads a a') (h' : Reads a' a'') : Reads a a'' := by
  obtain ⟨events, he, hr⟩ := h
  obtain ⟨events', he', hr'⟩ := h'
  refine ⟨events' ++ events, by rw [he', he, List.append_assoc], fun e hmem => ?_⟩
  exact (List.mem_append.1 hmem).elim (hr' e) (hr e)

theorem note {e : Event} (a : Ambient ε) (he : e.isReading) : Reads a (a.note e) :=
  ⟨[e], rfl, by simpa using he⟩

theorem log (a : Ambient ε) (e : Log.Entry) : Reads a (a.log e) := note a rfl

theorem outside (a : Ambient ε) (x : ε) : Reads a { a with outside := x } := ⟨[], rfl, nofun⟩

theorem release (pins : PinSet) (a : Ambient ε) : Reads a (a.release p pins) := by
  unfold Ambient.release
  split
  · exact refl a
  · exact (outside a _).trans (note _ rfl)

theorem releaseAll (pins : List PinSet) (a : Ambient ε) : Reads a (a.releaseAll p pins) := by
  unfold Ambient.releaseAll
  induction pins generalizing a with
  | nil => exact refl a
  | cons s rest ih => exact (release p s a).trans (ih _)

theorem cachedPage (file : File) (index : Nat) (a : Ambient ε) :
    Reads a (a.cachedPage p file index).2 := by
  unfold Ambient.cachedPage
  dsimp only
  cases (p.cachedPage file index a.outside).1 with
  | none => exact outside a _
  | some page => exact (outside a _).trans (note _ rfl)

theorem resolveBlock (file : File) (index : Nat) (a : Ambient ε) :
    Reads a (a.resolveBlock p file index).2 := by
  unfold Ambient.resolveBlock
  dsimp only
  cases (p.resolveBlock file index a.outside).1 with
  | error e => exact outside a _
  | ok block => exact (outside a _).trans (note _ rfl)

theorem locate (file : File) (span : Span) (a : Ambient ε) : Reads a (a.locate p file span).2 := by
  have hcache := cachedPage p file span.index a
  unfold Ambient.locate
  generalize a.cachedPage p file span.index = answer at hcache
  obtain ⟨_ | page, a₁⟩ := answer
  · have hblock := hcache.trans (resolveBlock p file span.index a₁)
    dsimp only
    generalize a₁.resolveBlock p file span.index = answer at hblock
    obtain ⟨e | block, a₂⟩ := answer
    · exact hblock
    · dsimp only
      cases (Word.mul? block file.blockSize).bind (Word.add? · span.within) <;> exact hblock
  · exact hcache

theorem locateAll (pageSize : Nat) (file : File) (offset length : Nat) (pins : PinSet)
    (a : Ambient ε) : Reads a (a.locateAll p pageSize file offset length pins).2 := by
  induction length using Nat.strongRecOn generalizing offset pins a with
  | ind length ih =>
    rw [Ambient.locateAll]
    split
    · exact refl a
    · next h =>
      have hpos := Span.first_length_pos offset h
      dsimp only
      generalize Span.first pageSize offset length = span at hpos ⊢
      have hlocate := locate p file span a
      generalize a.locate p file span = answer at hlocate
      obtain ⟨e | ⟨extent, page⟩, a₁⟩ := answer
      · exact hlocate.trans (release p pins a₁)
      · have hrest := hlocate.trans (ih (length - span.length) (by omega) (offset + span.length)
          (page.elim pins pins.push) a₁)
        dsimp only
        generalize a₁.locateAll p pageSize file (offset + span.length) (length - span.length)
          (page.elim pins pins.push) = answer at hrest ⊢
        obtain ⟨e | ⟨extents, pins'⟩, a₂⟩ := answer <;> exact hrest

theorem resolveFile (pageSize : Nat) (file : Option File) (offset length : Nat) (a : Ambient ε) :
    Reads a (a.resolveFile p pageSize file offset length).2 := by
  unfold Ambient.resolveFile
  cases file with
  | none => exact log a _
  | some file =>
    dsimp only
    cases Word.add? offset length with
    | none => exact refl a
    | some stop =>
      have hall := locateAll p pageSize file offset length {} a
      dsimp only
      generalize a.locateAll p pageSize file offset length {} = answer at hall ⊢
      obtain ⟨e | ⟨extents, pins⟩, a₁⟩ := answer <;> exact hall

theorem openChecked (pageSize : Nat) (descriptor : Int) (a : Ambient ε) :
    Reads a (a.openChecked p pageSize descriptor).2 := by
  unfold Ambient.openChecked Ambient.checkFile
  cases p.openFile descriptor a.outside with
  | error e => exact refl a
  | ok file =>
    dsimp only
    cases file.classify pageSize (p.provider · a.outside) with
    | error reason => exact log a _
    | ok kind => exact refl a

end Reads

end Ambient

namespace World

variable (p : Platform ε)

/-- What leads from `w` to `w'` looks at sources and leaves the instance as it is. -/
structure Reads (w w' : World ε) : Prop where
  core : w'.core = w.core
  ambient : w.ambient.Reads w'.ambient

namespace Reads

variable {p} {w w' w'' : World ε}

theorem refl (w : World ε) : Reads w w := ⟨rfl, .refl _⟩

theorem trans (h : Reads w w') (h' : Reads w' w'') : Reads w w'' :=
  ⟨h'.core.trans h.core, h.ambient.trans h'.ambient⟩

theorem log (w : World ε) (e : Log.Entry) : Reads w (w.log e) := ⟨rfl, .log _ e⟩

theorem log? (w : World ε) (e : Option Log.Entry) : Reads w (w.log? e) := by
  cases e with
  | none => exact refl w
  | some e => exact log w e

theorem releaseAll (pins : List PinSet) (w : World ε) : Reads w (w.releaseAll p pins) :=
  ⟨rfl, .releaseAll p pins _⟩

theorem pinHost (hp : p.CleansNothing) (address count : Nat) (w : World ε) :
    Reads w (w.pinHost p address count).2 := by
  unfold World.pinHost
  dsimp only
  rw [hp.pinHost]
  cases (p.pinHost address count w.ambient.outside).1.pages with
  | error e => exact ⟨rfl, .outside _ _⟩
  | ok pages => exact ⟨rfl, (Ambient.Reads.outside _ _).trans (.note _ rfl)⟩

theorem resolveHost (hp : p.CleansNothing) (pageSize address length : Nat) (w : World ε) :
    Reads w (w.resolveHost p pageSize address length).2 := by
  unfold World.resolveHost
  cases Word.add? address length with
  | none => exact refl w
  | some stop =>
    dsimp only
    generalize Word.alignDown address pageSize = first
    generalize Word.ceilDiv (stop - first) pageSize = count
    have hpin := pinHost hp first count w
    generalize w.pinHost p first count = answer at hpin ⊢
    obtain ⟨e | pages, w₁⟩ := answer
    · exact hpin
    · dsimp only
      split
      · exact (hpin.trans (log _ _)).trans (releaseAll _ _)
      · exact hpin

theorem resolveChunk (hp : p.CleansNothing) (file : Option File) (chunk : Chunk) (w : World ε) :
    Reads w (w.resolveChunk p file chunk).2 := by
  cases chunk with
  | host address length => exact resolveHost hp _ address length w
  | file offset length => exact ⟨rfl, .resolveFile p _ file offset length _⟩

theorem resolve (hp : p.CleansNothing) (file : Option File) (chunks : List Chunk) (w : World ε) :
    Reads w (w.resolve p file chunks).2 := by
  induction chunks generalizing w with
  | nil => exact refl w
  | cons chunk rest ih =>
    rw [World.resolve]
    have hchunk := resolveChunk hp file chunk w
    generalize w.resolveChunk p file chunk = answer at hchunk ⊢
    obtain ⟨e | ⟨extents, pins⟩, w₁⟩ := answer
    · exact hchunk
    · have hrest := hchunk.trans (ih w₁)
      dsimp only
      generalize w₁.resolve p file rest = answer at hrest ⊢
      obtain ⟨stop | ⟨more, others⟩, w₂⟩ := answer <;> exact hrest

theorem sourceFile (order : CopyOrder) (w : World ε) : Reads w (w.sourceFile p order).2 := by
  unfold World.sourceFile World.liftAmbient
  split
  · cases order.descriptor with
    | none => exact log w _
    | some descriptor =>
      have hopen := Ambient.Reads.openChecked p w.core.config.hostPageSize descriptor w.ambient
      dsimp only
      generalize w.ambient.openChecked p w.core.config.hostPageSize descriptor = answer at hopen
      obtain ⟨e | file, a⟩ := answer <;> exact ⟨rfl, hopen⟩
  · exact refl w

end Reads

end World

/-! ## Giving back -/

theorem RegionUse.put?_succ {u : RegionUse} (hslot : u.slot = {}) :
    ({ u with refs := u.refs + 1 } : RegionUse).put? = some (none, u) := by
  obtain ⟨r, refs, slot⟩ := u
  subst hslot
  cases refs <;> rfl

/-- A reference that has just been taken is given back. -/
theorem Mappings.put?_acquire {m m' : Mappings} {h : Handle} {use : RegionUse}
    (ha : m.acquire? h = some (use, m')) (hslot : use.slot = {}) : m'.put? h = some (none, m) := by
  obtain ⟨u, rfl, hf, rfl⟩ := Mappings.acquire?_eq_some ha
  have hfind : (m.table.insert h { u with refs := u.refs + 1 }).find? h =
      some { u with refs := u.refs + 1 } := (Sharded.find?_insert ..).trans (if_pos rfl)
  unfold put?
  dsimp only
  rw [hfind]
  dsimp only
  rw [RegionUse.put?_succ (u := u) hslot, Option.map_some, Sharded.insert_insert,
    Sharded.insert_self hf]

namespace World

variable (p : Platform ε)

/-- Registered regions are listed under their handles and nobody waits for them, and no task has the
next id. -/
structure Tidy (w : World ε) : Prop where
  regions : ∀ h u, w.core.mappings.table.find? h = some u →
    u.region.handle = h ∧ u.slot.occupant = none
  fresh : w.core.tasks.table.find? w.core.tasks.allocate.1 = none

namespace Tidy

variable {p} {w w' : World ε} {h : Handle} {use : RegionUse} {m : Mappings}

theorem acquired (hw : w.Tidy) (ha : w.core.mappings.acquire? h = some (use, m)) :
    use.region.handle = h ∧ use.slot = {} := by
  obtain ⟨u, rfl, hf, -⟩ := Mappings.acquire?_eq_some ha
  obtain ⟨hh, hslot⟩ := hw.regions h u hf
  exact ⟨hh, congrArg WaitSlot.mk hslot⟩

theorem put (hw : w.Tidy) (ha : w.core.mappings.acquire? h = some (use, m))
    (hm : w'.core.mappings = m) : w'.put p h = w'.setMappings w.core.mappings := by
  subst hm
  unfold World.put
  rw [Mappings.put?_acquire ha (hw.acquired ha).2]
  rfl

end Tidy

/-- From `w` to `w'`, an instance has written to its log and looked at sources. It has counted
requests and given out the next task id, and stays as it is otherwise. -/
structure Spares (w w' : World ε) : Prop where
  core : w'.core =
    { w.core with tasks := { w'.core.tasks with table := w.core.tasks.table } }
  counts : ∀ id ≠ w.core.tasks.allocate.1,
    w'.core.tasks.outstandingOf id = w.core.tasks.outstandingOf id
  ambient : w.ambient.Reads w'.ambient

variable {p}

/-! ### Preparation -/

/-- A request that is not admitted. -/
theorem reads_prepare {order : CopyOrder} {e : Error} {w w' : World ε} (hw : w.Tidy)
    (h : w.prepare p order = (.error e, w')) : Reads w w' := by
  unfold prepare at h
  rcases ht : Chunk.totalLength order.chunks with fault | length <;> rw [ht] at h
  · obtain ⟨-, rfl⟩ := Prod.mk.inj h
    exact .log? w _
  unfold acquire at h
  rcases ha : w.core.mappings.acquire? order.handle with _ | ⟨use, m⟩ <;> rw [ha] at h
  · obtain ⟨-, rfl⟩ := Prod.mk.inj h
    exact .log w _
  -- What has been taken is given back after anything that reads.
  have hput {w₂ : World ε} (hr : Reads (w.setMappings m) w₂) : Reads w (w₂.put p order.handle) := by
    rw [hw.put ha (congrArg Core.mappings hr.core)]
    exact ⟨by rw [setMappings, hr.core]; rfl, hr.ambient⟩
  simp only [World.window] at h
  rcases hwin : use.region.window order.offset length with fault | start <;> rw [hwin] at h
  · obtain ⟨-, rfl⟩ := Prod.mk.inj h
    exact hput (.log? _ _)
  dsimp only at h
  have hfile := Reads.sourceFile (p := p) order (w.setMappings m)
  rcases hs : (w.setMappings m).sourceFile p order with ⟨e' | file, w₂⟩ <;> rw [hs] at h hfile
  · obtain ⟨-, rfl⟩ := Prod.mk.inj h
    exact hput hfile
  · simp at h

/-- A request that is admitted has a reference to its region and the next task id. -/
theorem prepare_core {order : CopyOrder} {task : Task} {w w' : World ε}
    (h : w.prepare p order = (.ok task, w')) :
    ∃ use m, w.core.mappings.acquire? order.handle = some (use, m) ∧
      w'.core = { w.core with mappings := m, tasks := w.core.tasks.allocate.2 } ∧
      w.ambient.Reads w'.ambient ∧ task.id = w.core.tasks.allocate.1 ∧ task.slot = {} ∧
      task.holds.pins = [] ∧ task.holds.region = use.region := by
  obtain @⟨_, _, use, file, w₁, w₂, -, hacquire, -, hfile⟩ := prepare_eq_ok_iff.1 h
  unfold acquire at hacquire
  rcases ha : w.core.mappings.acquire? order.handle with _ | ⟨use', m⟩ <;> rw [ha] at hacquire
  · cases hacquire
  cases hacquire
  have hreads := Reads.sourceFile (p := p) order (w.setMappings m)
  rw [hfile] at hreads
  have hcore : w₂.core = { w.core with mappings := m } := hreads.core
  refine ⟨use, m, rfl, ?_, hreads.ambient, ?_, rfl, rfl, rfl⟩
  · rw [setTasks, hcore]
  · rw [hcore]

/-! ### Cleanup -/

/-- The cleanup of a task that has just been registered undoes its registration. -/
theorem Tidy.cleanup {w w' : World ε} {h : Handle} {use : RegionUse} {m : Mappings} {task : Task}
    {t : Tasks} (hw : w.Tidy) (ha : w.core.mappings.acquire? h = some (use, m))
    (hid : task.id = w.core.tasks.allocate.1) (hslot : task.slot = {})
    (hregion : task.holds.region = use.region)
    (ht : t.table = w.core.tasks.table.insert task.id task)
    (hcore : w'.core = { w.core with mappings := m, tasks := t }) :
    (w'.cleanup p task.id).2.core =
        { w.core with tasks := { t with table := w.core.tasks.table } } ∧
      w'.ambient.Reads (w'.cleanup p task.id).2.ambient := by
  have hremove : w'.core.tasks.remove? task.id =
      some (task, { t with table := w.core.tasks.table }) := by
    have hfind : t.table.find? task.id = some task := by
      rw [ht, Sharded.find?_insert, if_pos rfl]
    rw [hcore, Tasks.remove?, hfind, Option.map_some, ht, Sharded.erase_insert (hid ▸ hw.fresh)]
  have hput : (w'.setTasks { t with table := w.core.tasks.table }).put p task.holds.region.handle =
      (w'.setTasks { t with table := w.core.tasks.table }).setMappings w.core.mappings := by
    rw [hregion, (hw.acquired ha).1]
    exact hw.put ha (congrArg Core.mappings hcore)
  unfold World.cleanup
  rw [hremove]
  dsimp only
  rw [hput, hslot]
  refine ⟨?_, (Ambient.Reads.releaseAll p _ _).trans (.log _ _)⟩
  show ((w'.setTasks _).setMappings w.core.mappings).core = _
  rw [setTasks, hcore]
  rfl

end World

/-! ## Requests that submit nothing -/

namespace World

variable (p : Platform ε)

/-- A submission uses a token. -/
theorem next_submit (id : TaskId) (run : Run) (w : World ε) :
    w.core.flights.next < (w.submit p id run).2.core.flights.next := by
  rw [submit_flights]
  exact Nat.lt_succ_self _

theorem next_feed (id : TaskId) (runs : List Run) (w : World ε) :
    w.core.flights.next ≤
      (Sink.feed (fun run w => w.submit p id run) runs w).2.core.flights.next := by
  induction runs generalizing w with
  | nil => exact Nat.le_refl _
  | cons run rest ih =>
    have hsubmit := next_submit p id run w
    rw [Sink.feed]
    generalize w.submit p id run = answer at hsubmit ⊢
    obtain ⟨e | _, w'⟩ := answer
    · exact hsubmit.le
    · exact hsubmit.le.trans (ih w')

/-- Runs that use no token are none. -/
theorem feed_eq_nil {id : TaskId} {runs : List Run} {w : World ε}
    (h : (Sink.feed (fun run w => w.submit p id run) runs w).2.core.flights.next =
      w.core.flights.next) : runs = [] := by
  cases runs with
  | nil => rfl
  | cons run rest =>
    have hsubmit := next_submit p id run w
    rw [Sink.feed] at h
    generalize w.submit p id run = answer at h hsubmit
    obtain ⟨e | _, w'⟩ := answer
    · exact absurd h hsubmit.ne'
    · exact absurd h (hsubmit.trans_le (next_feed p id rest w')).ne'

variable {p}

/-- A launch feeds runs to the channels and writes to the log. -/
theorem submitAll_feed (task : Task) (r : Region) (extents : List Extent) (w : World ε) :
    ∃ runs, Reads (Sink.feed (fun run w => w.submit p task.id run) runs w).2
      (w.submitAll p task r extents).2 := by
  unfold World.submitAll
  dsimp only
  rw [Cursor.drive_eq_feed]
  generalize (Cursor.mk r.layout task.start none).drive collect extents [] = plan
  obtain ⟨answer, runs⟩ := plan
  refine ⟨runs.reverse, ?_⟩
  dsimp only
  generalize Sink.feed (fun run w => w.submit p task.id run) runs.reverse w = fed
  obtain ⟨e | _, w'⟩ := fed
  · exact .log _ _
  · cases answer with
    | ok => exact .refl _
    | error stop =>
      cases stop with
      | refused reason => exact reason.elim
      | outside position => exact (Reads.log _ _).trans (.log _ _)

/-- A launch that submits nothing only writes to the log. -/
theorem reads_submitAll {task : Task} {r : Region} {extents : List Extent} {w : World ε}
    (h : (w.submitAll p task r extents).2.core.flights.next = w.core.flights.next) :
    Reads w (w.submitAll p task r extents).2 := by
  obtain ⟨runs, hreads⟩ := submitAll_feed (p := p) task r extents w
  rw [hreads.core] at h
  obtain rfl := feed_eq_nil p h
  exact hreads

/-- What comes before the submissions of a request uses no token. -/
theorem flights_supplied {order : CopyOrder} {task : Task} {extents : List Extent}
    {pins : List PinSet} {w w₁ w₂ : World ε} (hprepare : w.prepare p order = (.ok task, w₁))
    (hresolve : (w₁.enrolled task).resolve p task.holds.file task.chunks =
      (.ok (extents, pins), w₂)) :
    (w₂.supplied p task extents pins).core.flights = w.core.flights := by
  obtain ⟨use, m, -, hcore, -⟩ := prepare_core hprepare
  have hflights := resolve_flights p task.holds.file task.chunks (w₁.enrolled task)
  rw [hresolve] at hflights
  rw [supplied_flights, hflights, show (w₁.enrolled task).core.flights = w₁.core.flights from rfl,
    hcore]

/-! ## Requests that fail -/

/-- The sources of a task that has just been registered are not resolved. -/
theorem spares_unresolved (hp : p.CleansNothing) {order : CopyOrder} {task : Task}
    {stop : Unresolved} {w w₁ w₂ : World ε} (hw : w.Tidy)
    (hprepare : w.prepare p order = (.ok task, w₁))
    (hresolve : (w₁.enrolled task).resolve p task.holds.file task.chunks = (.error stop, w₂)) :
    w.Spares ((w₁.enrolled task).launch p task).2 := by
  rw [launch_of_unresolved (find?_enrolled task w₁) hresolve]
  obtain ⟨use, m, ha, hcore, hprepared, hid, hslot, -, hregion⟩ := prepare_core hprepare
  have hreads := Reads.resolve hp task.holds.file task.chunks (w₁.enrolled task)
  rw [hresolve] at hreads
  have hgone : Reads w₂ ((w₂.log (.unresolved task.id stop.error)).releaseAll p stop.pins) :=
    (Reads.log w₂ _).trans (.releaseAll stop.pins _)
  have hcore₂ : ((w₂.log (.unresolved task.id stop.error)).releaseAll p stop.pins).core =
      { w.core with mappings := m, tasks := w.core.tasks.allocate.2.register task } := by
    rw [hgone.core, hreads.core, enrolled, World.log, setTasks, hcore]
  obtain ⟨hclean, hgiven⟩ := hw.cleanup (p := p) ha hid hslot hregion rfl hcore₂
  refine ⟨by rw [hclean], fun other hother => ?_, ?_⟩
  · rw [hclean]
    exact (Tasks.outstandingOf_register ..).trans (if_neg (hid ▸ hother))
  · exact hprepared.trans (((Ambient.Reads.log _ _).trans hreads.ambient).trans
      (hgone.ambient.trans hgiven))

/-- A task that has just been registered is launched, and nothing is submitted. -/
theorem spares_unsubmitted (hp : p.CleansNothing) {order : CopyOrder} {task : Task}
    {extents : List Extent} {pins : List PinSet} {w w₁ w₂ w₃ : World ε} {e : Log.Entry}
    (hw : w.Tidy) (hprepare : w.prepare p order = (.ok task, w₁))
    (hresolve : (w₁.enrolled task).resolve p task.holds.file task.chunks =
      (.ok (extents, pins), w₂))
    (hsubmit : Reads ((w₂.retain p task.id pins).log e) w₃) : w.Spares (w₃.finish p task.id) := by
  obtain ⟨use, m, ha, hcore, hprepared, hid, hslot, -, hregion⟩ := prepare_core hprepare
  have hreads := Reads.resolve hp task.holds.file task.chunks (w₁.enrolled task)
  rw [hresolve] at hreads
  -- The task as it is registered now, with its page references.
  let held : Task := { task with holds := { task.holds with pins := task.holds.pins ++ pins } }
  have hcore₂ : w₂.core = { w.core with
      mappings := m, tasks := w.core.tasks.allocate.2.register task } := by
    rw [hreads.core, enrolled, World.log, setTasks, hcore]
  have hfind : w₂.core.tasks.table.find? task.id = some task := by
    rw [hreads.core]
    exact find?_enrolled task w₁
  have hretain : w₂.retain p task.id pins = w₂.setTasks { w.core.tasks.allocate.2.register task
      with table := w.core.tasks.table.insert task.id held } := by
    rw [World.retain, Tasks.retain?, hfind, Option.map_some, hcore₂]
    exact congrArg (fun table => w₂.setTasks { w.core.tasks.allocate.2.register task with table })
      Sharded.insert_insert
  rw [hretain] at hsubmit
  have hcore₃ : w₃.core = { w.core with
      mappings := m
      tasks := { w.core.tasks.allocate.2.register task with
        table := w.core.tasks.table.insert task.id held } } := by
    rw [hsubmit.core, World.log, setTasks, hcore₂]
  have hcount (other : TaskId) : w₃.core.tasks.outstandingOf other =
      if other = task.id then 1 else w.core.tasks.outstandingOf other := by
    rw [hcore₃]
    exact Tasks.outstandingOf_register w.core.tasks.allocate.2 task other
  have hlast : (w₃.core.tasks.finish task.id).1 :=
    (Tasks.finish_fst_iff ..).2 ((hcount _).trans (if_pos rfl))
  have htable : (w₃.core.tasks.finish task.id).2.table =
      w.core.tasks.table.insert held.id held := by rw [Tasks.table_finish, hcore₃]
  have hcore₄ : (w₃.setTasks (w₃.core.tasks.finish task.id).2).core = { w.core with
      mappings := m, tasks := (w₃.core.tasks.finish task.id).2 } := by rw [setTasks, hcore₃]
  obtain ⟨hclean, hgiven⟩ :=
    @Tidy.cleanup ε p w _ _ use m held _ hw ha hid hslot hregion htable hcore₄
  have hfinish : w₃.finish p task.id =
      ((w₃.setTasks (w₃.core.tasks.finish task.id).2).cleanup p held.id).2 := if_pos hlast
  rw [hfinish]
  refine ⟨by rw [hclean], fun other hother => ?_, ?_⟩
  · have hne : other ≠ task.id := hid ▸ hother
    rw [hclean]
    exact (Tasks.outstandingOf_finish ..).trans ((if_neg hne).trans ((hcount _).trans (if_neg hne)))
  · exact hprepared.trans (((Ambient.Reads.log _ _).trans hreads.ambient).trans
      (((Ambient.Reads.log _ _).trans hsubmit.ambient).trans hgiven))

/-- A request that fails with no submission is undone. -/
theorem spares_copyAsync (hp : p.CleansNothing) {order : CopyOrder} {e : Error} {w w' : World ε}
    (hw : w.Tidy) (h : w.copyAsync p order = (.error e, w'))
    (hnext : w'.core.flights.next = w.core.flights.next) : w.Spares w' := by
  rcases hprepare : w.prepare p order with ⟨e' | task, w₁⟩
  · have hreads := reads_prepare hw hprepare
    unfold copyAsync at h
    rw [hprepare] at h
    obtain ⟨-, rfl⟩ := Prod.mk.inj h
    refine ⟨?_, fun id _ => ?_, hreads.ambient⟩
    · rw [setTasks, hreads.core]
      rfl
    · rw [setTasks, hreads.core]
      rfl
  rw [copyAsync_of_prepare hprepare] at h
  obtain ⟨-, rfl⟩ := Prod.mk.inj h
  rcases hresolve : (w₁.enrolled task).resolve p task.holds.file task.chunks with
    ⟨stop | ⟨extents, pins⟩, w₂⟩
  · exact spares_unresolved hp hw hprepare hresolve
  · rw [launch_of_resolve (find?_enrolled task w₁) hresolve] at hnext ⊢
    rw [finish_flights, ← flights_supplied hprepare hresolve] at hnext
    exact spares_unsubmitted hp hw hprepare hresolve (reads_submitAll hnext)

/-! ## Where requests fail -/

section

variable (p : Platform ε)

/-- A page of a range of a file cannot be read: it is not in the page cache, and its disk block is not
found, or has no address. The pages before it can be read. -/
inductive PageFails (pageSize : Nat) (file : File) :
    (offset length : Nat) → Ambient ε → Error → Prop where
  | block {offset length : Nat} {a : Ambient ε} {x x' : ε} {e : Error}
      (more : ¬(pageSize = 0 ∨ length = 0))
      (miss : p.cachedPage file (Span.first pageSize offset length).index a.outside = (none, x))
      (fails : p.resolveBlock file (Span.first pageSize offset length).index x = (.error e, x')) :
      PageFails pageSize file offset length a e
  | address {offset length number : Nat} {a : Ambient ε} {x x' : ε}
      (more : ¬(pageSize = 0 ∨ length = 0))
      (miss : p.cachedPage file (Span.first pageSize offset length).index a.outside = (none, x))
      (known : p.resolveBlock file (Span.first pageSize offset length).index x = (.ok number, x'))
      (far : Word.bound ≤ number * file.blockSize + (Span.first pageSize offset length).within) :
      PageFails pageSize file offset length a .invalidArgument
  | later {offset length : Nat} {place : Place} {a a₁ : Ambient ε} {e : Error}
      (more : ¬(pageSize = 0 ∨ length = 0))
      (found : a.Finds p file (Span.first pageSize offset length).index place a₁)
      (near : place.Addressable file.blockSize (Span.first pageSize offset length).within)
      (fails : PageFails pageSize file (offset + (Span.first pageSize offset length).length)
        (length - (Span.first pageSize offset length).length) a₁ e) :
      PageFails pageSize file offset length a e

/-- A chunk cannot be read: its host pages cannot be pinned, or too few of them are, or a page of
its file range cannot be read. -/
inductive ChunkFails (pageSize : Nat) (file : Option File) : Chunk → Ambient ε → Error → Prop where
  | pin {address length stop : Nat} {a : Ambient ε} {e : Error}
      (range : Word.add? address length = some stop)
      (fails : (p.pinHost (Word.alignDown address pageSize)
        (Word.ceilDiv (stop - Word.alignDown address pageSize) pageSize) a.outside).1.pages =
          .error e) :
      ChunkFails pageSize file (.host address length) a e
  | short {address length stop : Nat} {a : Ambient ε} {pages : List HostPage}
      (range : Word.add? address length = some stop)
      (pinned : (p.pinHost (Word.alignDown address pageSize)
        (Word.ceilDiv (stop - Word.alignDown address pageSize) pageSize) a.outside).1.pages =
          .ok pages)
      (few : pages.length < Word.ceilDiv (stop - Word.alignDown address pageSize) pageSize) :
      ChunkFails pageSize file (.host address length) a .badAddress
  | page {source : File} {offset length stop : Nat} {a : Ambient ε} {e : Error}
      (source_eq : file = some source) (range : Word.add? offset length = some stop)
      (fails : PageFails p pageSize source offset length a e) :
      ChunkFails pageSize file (.file offset length) a e

/-- A chunk of a request cannot be read, and those before it can. -/
inductive SourcesFail (file : Option File) : List Chunk → World ε → Error → Prop where
  | here {chunk : Chunk} {rest : List Chunk} {w : World ε} {e : Error}
      (fails : ChunkFails p w.core.config.hostPageSize file chunk w.ambient e) :
      SourcesFail file (chunk :: rest) w e
  | later {chunk : Chunk} {rest : List Chunk} {w w₁ : World ε} {e : Error}
      {found : List Extent × List PinSet}
      (resolved : w.resolveChunk p file chunk = (.ok found, w₁))
      (fails : SourcesFail file rest w₁ e) : SourcesFail file (chunk :: rest) w e

/-- The chunks of a request can be copied, and fit into a registered region. -/
def Accepts (order : CopyOrder) (w : World ε) : Prop :=
  ∃ length use start, Chunk.totalLength order.chunks = .ok length ∧
    w.core.mappings.table.find? order.handle = some use ∧
    use.region.window order.offset length = .ok start

/-- A request fails with an error before its first submission. -/
inductive FailsEarly (order : CopyOrder) (w : World ε) : Error → Prop where
  | chunks {fault : Chunk.Fault} (invalid : Chunk.totalLength order.chunks = .error fault) :
      FailsEarly order w .invalidArgument
  | handle {length : Nat} (valid : Chunk.totalLength order.chunks = .ok length)
      (unknown : w.core.mappings.table.find? order.handle = none) : FailsEarly order w .notFound
  | window {length : Nat} {use : RegionUse} {fault : Region.WindowFault}
      (valid : Chunk.totalLength order.chunks = .ok length)
      (found : w.core.mappings.table.find? order.handle = some use)
      (outside : use.region.window order.offset length = .error fault) :
      FailsEarly order w .invalidArgument
  | descriptor (accepts : w.Accepts order) (file : Chunk.needsFile order.chunks)
      (missing : order.descriptor = none) : FailsEarly order w .badDescriptor
  | opening {descriptor : Int} {e : Error} (accepts : w.Accepts order)
      (file : Chunk.needsFile order.chunks) (given : order.descriptor = some descriptor)
      (fails : p.openFile descriptor w.ambient.outside = .error e) : FailsEarly order w e
  | eligibility {descriptor : Int} {source : File} {reason : Refusal} (accepts : w.Accepts order)
      (file : Chunk.needsFile order.chunks) (given : order.descriptor = some descriptor)
      (opened : p.openFile descriptor w.ambient.outside = .ok source)
      (refused : source.classify w.core.config.hostPageSize (p.provider · w.ambient.outside) =
        .error reason) : FailsEarly order w (.unsupported reason)
  | sources {task : Task} {w₁ : World ε} {e : Error}
      (prepared : w.prepare p order = (.ok task, w₁))
      (fails : SourcesFail p task.holds.file task.chunks (w₁.enrolled task) e) :
      FailsEarly order w e

end

/-! ### Each failure is reported -/

theorem PageFails.locateAll {pageSize offset length : Nat} {file : File} {a : Ambient ε} {e : Error}
    (h : PageFails p pageSize file offset length a e) (pins : PinSet) :
    (a.locateAll p pageSize file offset length pins).1 = .error e := by
  induction h generalizing pins with
  | block more miss fails =>
    rw [Ambient.locateAll, dif_neg more]
    simp only [Ambient.locate_of_uncached p miss, fails]
  | @address offset length number a x x' more miss known far =>
    have hfar : ¬(Place.block number).Addressable file.blockSize
        (Span.first pageSize offset length).within := Nat.not_lt.2 far
    rw [Ambient.locateAll, dif_neg more]
    simp only [Ambient.locate_of_uncached p miss, known, if_neg hfar]
  | @later offset length place a a₁ e more found near fails ih =>
    have hrest := ih (place.page?.elim pins pins.push)
    rw [Ambient.locateAll, dif_neg more]
    simp only [(Ambient.locate_ok_iff p).2 ⟨place, found, near, rfl⟩]
    generalize a₁.locateAll p pageSize file _ _ (place.page?.elim pins pins.push) = answer at hrest
    obtain ⟨e' | _, a₂⟩ := answer
    · exact congrArg Except.error (Except.error.inj hrest)
    · cases hrest

theorem ChunkFails.resolveChunk {file : Option File} {chunk : Chunk} {w : World ε} {e : Error}
    (h : ChunkFails p w.core.config.hostPageSize file chunk w.ambient e) :
    (w.resolveChunk p file chunk).1 = .error e := by
  cases h with
  | pin range fails => simp only [World.resolveChunk, resolveHost, pinHost, range, fails]
  | short range pinned few =>
    simp only [World.resolveChunk, resolveHost, pinHost, range, pinned, if_pos few]
  | page source_eq range fails =>
    have hall := fails.locateAll {}
    simp only [World.resolveChunk, liftAmbient, Ambient.resolveFile, source_eq, range]
    generalize w.ambient.locateAll p w.core.config.hostPageSize _ _ _ {} = answer at hall
    obtain ⟨e' | _, a⟩ := answer
    · exact congrArg Except.error (Except.error.inj hall)
    · cases hall

theorem SourcesFail.resolve {file : Option File} {chunks : List Chunk} {w : World ε} {e : Error}
    (h : SourcesFail p file chunks w e) :
    ∃ pins w', w.resolve p file chunks = (.error ⟨e, pins⟩, w') := by
  induction h with
  | @here chunk rest w e fails =>
    have hchunk := fails.resolveChunk
    rw [World.resolve]
    generalize w.resolveChunk p file chunk = answer at hchunk
    obtain ⟨e' | _, w₁⟩ := answer
    · obtain rfl := Except.error.inj hchunk
      exact ⟨_, _, rfl⟩
    · cases hchunk
  | @later chunk rest w w₁ e found resolved fails ih =>
    obtain ⟨pins, w₂, hrest⟩ := ih
    rw [World.resolve, resolved]
    dsimp only
    rw [hrest]
    exact ⟨_, _, rfl⟩

theorem FailsEarly.cases {order : CopyOrder} {w : World ε} {e : Error}
    (h : FailsEarly p order w e) : (w.prepare p order).1 = .error e ∨
      ∃ task w₁, w.prepare p order = (.ok task, w₁) ∧ ∃ pins w₂,
        (w₁.enrolled task).resolve p task.holds.file task.chunks = (.error ⟨e, pins⟩, w₂) := by
  cases h with
  | chunks invalid => exact .inl (by simp only [prepare, invalid])
  | handle valid unknown =>
    exact .inl (by simp only [prepare, valid, acquire, Mappings.acquire?, unknown, Option.map_none])
  | window valid found outside =>
    refine .inl ?_
    simp only [prepare, valid, acquire, Mappings.acquire?, found, Option.map_some, World.window,
      outside]
  | descriptor accepts file missing =>
    obtain ⟨length, use, start, valid, found, inside⟩ := accepts
    refine .inl ?_
    simp only [prepare, valid, acquire, Mappings.acquire?, found, Option.map_some, World.window,
      inside, sourceFile, file, missing, if_true]
  | opening accepts file given fails =>
    obtain ⟨length, use, start, valid, found, inside⟩ := accepts
    refine .inl ?_
    simp only [prepare, valid, acquire, Mappings.acquire?, found, Option.map_some, World.window,
      inside, sourceFile, file, given, liftAmbient, Ambient.openChecked, setMappings, fails,
      if_true]
  | eligibility accepts file given opened refused =>
    obtain ⟨length, use, start, valid, found, inside⟩ := accepts
    refine .inl ?_
    simp only [prepare, valid, acquire, Mappings.acquire?, found, Option.map_some, World.window,
      inside, sourceFile, file, given, liftAmbient, Ambient.openChecked, setMappings, opened,
      Ambient.checkFile, refused, if_true]
  | sources prepared fails => exact .inr ⟨_, _, prepared, fails.resolve⟩

/-- A request that fails early is answered with the error and undone. -/
theorem FailsEarly.copyAsync (hp : p.CleansNothing) {order : CopyOrder} {w : World ε} {e : Error}
    (hw : w.Tidy) (h : FailsEarly p order w e) :
    ∃ w', w.copyAsync p order = (.error e, w') ∧ w'.core.flights = w.core.flights := by
  rcases h.cases with herror | ⟨task, w₁, hprepare, pins, w₂, hresolve⟩
  · rcases hprepare : w.prepare p order with ⟨e' | task, w₁⟩ <;> rw [hprepare] at herror
    · obtain rfl := Except.error.inj herror
      have hflights : w₁.core.flights = w.core.flights :=
        congrArg Core.flights (reads_prepare hw hprepare).core
      refine ⟨w₁.setTasks w₁.core.tasks.reject, ?_, hflights⟩
      rw [World.copyAsync, hprepare]
    · cases herror
  · have hspares := spares_unresolved hp hw hprepare hresolve
    refine ⟨_, ?_, (congrArg Core.flights hspares.core).trans rfl⟩
    rw [copyAsync_of_prepare hprepare, launch_of_unresolved (find?_enrolled task w₁) hresolve]
    rfl

end World

/-! ## The ledger -/

theorem Ledger.pages_ofHistory (history : List Event) : (Ledger.ofHistory history).pages =
    (history.flatMap Event.obtains).length - (history.flatMap Event.returns).length := by
  induction history with
  | nil => rfl
  | cons e rest ih =>
    have hstep : (Ledger.ofHistory (e :: rest)).pages = (Ledger.ofHistory rest).pages +
        (e.obtains.length - e.returns.length) := by
      cases e <;>
        simp [Ledger.ofHistory, Ledger.record, Event.obtains, Event.returns, Int.sub_eq_add_neg]
    rw [hstep, ih, List.flatMap_cons, List.flatMap_cons, List.length_append, List.length_append]
    omega

theorem Ledger.pins_append {events : List Event} (h : ∀ e ∈ events, e.isReading)
    (history : List Event) :
    (Ledger.ofHistory (events ++ history)).pins = (Ledger.ofHistory history).pins := by
  induction events with
  | nil => rfl
  | cons e rest ih =>
    obtain ⟨he, hrest⟩ := List.forall_mem_cons.1 h
    refine Eq.trans ?_ (ih hrest)
    cases e <;> first | rfl | cases he

/-- Between calls, the page references that have not been given back are those of tasks. -/
theorem System.pages_ledger {s : System ε} (hb : s.moment.Balanced) :
    (Ledger.ofHistory s.world.ambient.history).pages = s.world.core.tasks.pages.card := by
  have hcard := congrArg Multiset.card hb
  rw [World.record_obtains, World.record_returns] at hcard
  simp only [Multiset.card_add, Multiset.coe_card] at hcard
  have hhand : s.moment.hand.pages.card = 0 := Multiset.card_zero
  rw [Ledger.pages_ofHistory]
  show ((s.moment.world.ambient.history.flatMap Event.obtains).length -
    (s.moment.world.ambient.history.flatMap Event.returns).length : Int) =
      s.moment.world.core.tasks.pages.card
  omega

/-! ## After any run -/

variable {p q : Platform ε} {s : System ε}

theorem Moment.Accounted.tidy (hi : s.moment.Accounted) : s.world.Tidy where
  regions h u hf := ⟨(hi.keyed.regions.registered h u hf).1, hi.tended.registered h u hf⟩
  fresh := hi.counted.find?_allocate

/-- **Requests that fail are undone.** After any run, take a request that calls nothing back.

* If it fails before its first submission, at any of the points where it can, it is answered with
  the error, and no token is used.
* If it is answered with an error and has used no token, the instance is as it was: the regions and
  their references, the tasks, the submissions in flight and the parked calls, and as many pins and
  page references are out as before. Requests have been counted, the next task id may have been
  given out, and the log has grown. -/
theorem Reach.failures_undone (hq : q.CleansNothing) (h : Reach p (fun _ => True) s)
    (order : CopyOrder) :
    (∀ e, s.world.FailsEarly q order e → ∃ w', s.world.copyAsync q order = (.error e, w') ∧
      w'.core.flights = s.world.core.flights) ∧
    ∀ e w', s.world.copyAsync q order = (.error e, w') →
      w'.core.flights.next = s.world.core.flights.next →
      s.world.Spares w' ∧
        Ledger.ofHistory w'.ambient.history = Ledger.ofHistory s.world.ambient.history := by
  have hstray : True ∨ p.CleansNothing := .inl trivial
  have hmove {q : Platform ε} (m m' : Moment ε) (hm : Move q True m m') :
      m.Accounted ∧ m.Balanced → m'.Accounted ∧ m'.Balanced := fun ⟨hi, hb⟩ =>
    ⟨hm.accounted hi, hm.balanced hi.counted hb⟩
  obtain ⟨hi, hb⟩ : s.moment.Accounted ∧ s.moment.Balanced :=
    h.invariant hstray (fun _ _ _ => trivial)
      (fun placement config x => ⟨Moment.accounted_fresh placement config x,
        (Moment.steady_fresh placement config x).balanced⟩) hmove
  refine ⟨fun e hfails => hfails.copyAsync hq hi.tidy, fun e w' hcopy hnext => ?_⟩
  have hspares := World.spares_copyAsync hq hi.tidy hcopy hnext
  refine ⟨hspares, ?_⟩
  have hmoves : Moves q True s.moment (s.perform q (.copyAsync order)).moment :=
    System.perform_moves (.inl trivial) (fun _ => trivial)
      (h.isPowerOfTwo hstray fun _ _ _ => trivial)
  have hperform : s.perform q (.copyAsync order) = ⟨w', s.held⟩ :=
    congrArg (fun answer => System.mk answer.2 s.held) hcopy
  obtain ⟨-, hb'⟩ := Moves.keeps hmove hmoves ⟨hi, hb⟩
  have hpages := System.pages_ledger hb'
  rw [hperform] at hpages
  have htable : w'.core.tasks.table = s.world.core.tasks.table := by rw [hspares.core]
  rw [Tasks.pages_congr htable, ← System.pages_ledger hb] at hpages
  obtain ⟨events, hhistory, hreading⟩ := hspares.ambient
  have hpins : (Ledger.ofHistory w'.ambient.history).pins =
      (Ledger.ofHistory s.world.ambient.history).pins := by
    rw [hhistory]
    exact Ledger.pins_append hreading _
  exact congrArg₂ Ledger.mk hpins hpages

/-- A bench with one region, whose host memory pins three pages at most. -/
def Bench.scarce : System Bench :=
  (System.mk (.fresh {} {} { host := { limit := some 3 } }) []).perform hookless
    (.map ⟨1⟩ ⟨0x10000⟩ 0x10000)

/-- A pin falls short. The pages that it has got are given back. -/
theorem Reach.failures_undone_scarce :
    let order : CopyOrder := ⟨⟨1⟩, none, 0, [.host 0x5000 0x8000]⟩
    let w := Bench.scarce.world
    Bench.hookless.CleansNothing ∧ Reach Bench.hookless (fun _ => True) Bench.scarce ∧
      w.FailsEarly Bench.hookless order .badAddress ∧
      ∃ w', w.copyAsync Bench.hookless order = (.error .badAddress, w') ∧ w.Spares w' ∧
        Ledger.ofHistory w'.ambient.history = Ledger.ofHistory w.ambient.history := by
  intro order w
  have h : Reach Bench.hookless (fun _ => True) Bench.scarce :=
    .call (@start _ _ _ {} {} { host := { limit := some 3 } } _ rfl) _ trivial
  have hstop : Word.add? 0x5000 0x8000 = some 0xd000 := by decide +kernel
  have hfew : 3 < Word.ceilDiv (0xd000 - Word.alignDown 0x5000 0x1000) 0x1000 := by decide +kernel
  have hok : (w.prepare Bench.hookless order).1.toOption.map Task.chunks = some order.chunks := by
    decide +kernel
  have hsize : (w.prepare Bench.hookless order).2.core.config.hostPageSize = 0x1000 := by
    decide +kernel
  have hpin : (Bench.hookless.pinHost (Word.alignDown 0x5000 0x1000)
      (Word.ceilDiv (0xd000 - Word.alignDown 0x5000 0x1000) 0x1000)
        (w.prepare Bench.hookless order).2.ambient.outside).1.pages =
      .ok [⟨⟨0x800000005000⟩⟩, ⟨⟨0x800000006000⟩⟩, ⟨⟨0x800000007000⟩⟩] := by decide +kernel
  have hfails : w.FailsEarly Bench.hookless order .badAddress := by
    rcases hprepare : w.prepare Bench.hookless order with ⟨e | task, w₁⟩ <;>
      rw [hprepare] at hok hsize hpin
    · cases hok
    · have hchunks : task.chunks = order.chunks := Option.some.inj hok
      refine .sources hprepare ?_
      rw [hchunks]
      refine .here ?_
      show World.ChunkFails Bench.hookless w₁.core.config.hostPageSize _ _ _ _
      rw [hsize]
      exact .short hstop hpin hfew
  obtain ⟨hanswer, hundone⟩ := failures_undone Bench.cleansNothing_hookless h order
  obtain ⟨w', hcopy, hflights⟩ := hanswer _ hfails
  exact ⟨Bench.cleansNothing_hookless, h, hfails, w', hcopy,
    hundone _ w' hcopy (congrArg Flights.next hflights)⟩

end PeerDma
