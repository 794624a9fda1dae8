import PeerDma.Bench.Basic
import PeerDma.Proofs.Plan
import PeerDma.Proofs.Sources

/-!
# Copies are correct

A request that succeeds has had all its sources looked up and all the runs of their plan taken by
the channels. Byte by byte, what the channels took goes to the destination range of the request and
comes from its chunks: from the pages that were pinned for host memory, from the page cache if a
page of a file is there, and from its disk block if it is not.

* `Run.bytes_targets`, `Run.bytes_sources`: the two sides of the bytes of a plan.
* `World.submitAll_ok`, `World.prepare_ok`, `World.launch_ok`: what the stages of a request leave in
  the history.
* `World.copyAsync_transfers`: the whole of it.
-/

namespace PeerDma

/-! ## The bytes of runs -/

/-- The bytes of a submission: which channel reads each and where, and where it goes. -/
def Flight.bytes (f : Flight) : List (Channel × Nat × Nat) :=
  (List.range f.request.length).map fun k =>
    (f.channel, f.request.source + k, (f.request.target.raw + k) % Word.bound)

/-- What the channel of a run is asked to copy. -/
def Run.request (r : Run) : Request := ⟨r.source, r.target, r.length⟩

namespace Run

theorem bytes_sources (runs : List Run) :
    (runs.flatMap bytes).map (fun b => (b.1, b.2.1)) = runs.flatMap (·.extent.bytes) := by
  have h (r : Run) : r.bytes.map (fun b => (b.1, b.2.1)) = r.extent.bytes := by
    simp [bytes, extent, Extent.bytes, List.range'_eq_map_range]
  simp only [List.map_flatMap, h]

/-- Runs that lie end to end, each inside a page, write the positions between their ends. -/
theorem bytes_targets {l : Layout} {start stop : Nat} {runs : List Run} (h : Tiles start runs stop)
    (hf : ∀ r ∈ runs, r.Fits l) :
    (runs.flatMap bytes).map (fun b => some b.2.2) =
      (List.range (stop - start)).map fun k => l.physAt? (start + k) := by
  induction runs generalizing start with
  | nil =>
    obtain rfl : start = stop := h
    simp
  | cons r rest ih =>
    obtain ⟨rfl, hpos, htail⟩ := h
    have hsum := htail.sum_length
    have hsplit : stop - r.position = r.length + (stop - (r.position + r.length)) := by omega
    rw [List.flatMap_cons, List.map_append, ih htail fun r hr => hf r (by simp [hr]), hsplit,
      List.range_add, List.map_append, List.map_map]
    congr 1
    · rw [bytes, List.map_map]
      apply List.map_congr_left
      intro k hk
      have hfit := hf r (by simp)
      have := hfit.inside
      exact (Layout.physAt?_add hfit.target (by have := List.mem_range.1 hk; omega)).symm
    · simp [Nat.add_assoc]

end Run

/-! ## Submissions -/

/-- The submissions are those of the runs, in order, for a task. -/
def Submits (id : TaskId) (runs : List Run) (flights : List Flight) : Prop :=
  flights.map (fun f => (f.task, f.channel, f.request)) =
    runs.map fun r => (id, r.channel, r.request)

theorem Submits.bytes {id : TaskId} {runs : List Run} {flights : List Flight}
    (h : Submits id runs flights) :
    flights.flatMap Flight.bytes =
      (runs.flatMap Run.bytes).map fun b => (b.1, b.2.1, b.2.2.raw) := by
  have hb : flights.flatMap Flight.bytes =
      (flights.map (fun f => (f.task, f.channel, f.request))).flatMap fun f =>
        (List.range f.2.2.length).map fun k =>
          (f.2.1, f.2.2.source + k, (f.2.2.target.raw + k) % Word.bound) := by
    rw [List.flatMap_map]
    rfl
  rw [hb, h, List.flatMap_map, List.map_flatMap]
  simp only [Run.bytes, List.map_map]
  rfl

theorem Submits.mem {id : TaskId} {runs : List Run} {flights : List Flight}
    (h : Submits id runs flights) {f : Flight} (hf : f ∈ flights) :
    ∃ r ∈ runs, f.task = id ∧ f.channel = r.channel ∧ f.request = r.request := by
  have hm := List.mem_map_of_mem (f := fun f : Flight => (f.task, f.channel, f.request)) hf
  rw [show _ = _ from h] at hm
  obtain ⟨r, hr, he⟩ := List.mem_map.1 hm
  simp only [Prod.mk.injEq] at he
  exact ⟨r, hr, he.1.symm, he.2.1.symm, he.2.2.symm⟩

theorem Submits.cons {id : TaskId} {runs : List Run} {flights : List Flight}
    (h : Submits id runs flights) (run : Run) (token : Token) :
    Submits id (run :: runs) (⟨token, id, run.channel, run.request⟩ :: flights) :=
  congrArg ((id, run.channel, run.request) :: ·) h

theorem Submits.lengths {id : TaskId} {runs : List Run} {flights : List Flight}
    (h : Submits id runs flights) :
    flights.map (·.request.length) = runs.map Run.length := by
  have := congrArg (List.map fun x => x.2.2.length) h
  simpa [Run.request, Function.comp_def] using this

namespace World

variable {ε : Type} (p : Platform ε)

/-- The submission of a run that is about to be offered. -/
def nextFlight (id : TaskId) (run : Run) (w : World ε) : Flight :=
  ⟨⟨w.core.flights.next⟩, id, run.channel, run.request⟩

/-- The world while the channel of a run looks at it: the run counts, and has its token. -/
def offer (id : TaskId) (run : Run) (w : World ε) : World ε :=
  ((w.log (.submitting id run)).setTasks (w.core.tasks.begin id)).setFlights
    (w.core.flights.start id run.channel run.request).2

/-- What the channel of a run answers. -/
def submitAnswer (run : Run) (w : World ε) : SubmitAnswer × ε :=
  p.submit ⟨w.core.flights.next⟩ run.channel run.request w.ambient.outside

/-- The world after the tasks that the channel cleans up before it takes or refuses a run. -/
def offered (id : TaskId) (run : Run) (w : World ε) : World ε :=
  World.cleanupAll p (w.submitAnswer p run).1.cleanups { w.offer id run with
    ambient := { (w.offer id run).ambient with outside := (w.submitAnswer p run).2 } }

theorem submit_eq (id : TaskId) (run : Run) (w : World ε) :
    w.submit p id run =
      match (w.submitAnswer p run).1.verdict with
      | .ok () =>
        (.ok (), ((w.offered p id run).note (.submitted (w.nextFlight id run))).landAll p
          (w.submitAnswer p run).1.ended)
      | .error e =>
        (.error e, (w.offered p id run).landAll p (w.submitAnswer p run).1.ended) := rfl

theorem Quiet.offered (id : TaskId) (run : Run) (w : World ε) : Quiet w (w.offered p id run) := by
  have h₁ := (Quiet.log w (.submitting id run)).trans (Quiet.setTasks _ (w.core.tasks.begin id))
  have h₂ := h₁.trans
    (Quiet.setFlights _ (w.core.flights.start id run.channel run.request).2)
  exact (h₂.trans (Quiet.setOutside _ _)).trans (Quiet.cleanupAll p _ _)

theorem submit_ok {id : TaskId} {run : Run} {w w' : World ε}
    (h : w.submit p id run = (.ok (), w')) :
    w'.core.config = w.core.config ∧
      w'.transfers = w.transfers ++ [.submitted (w.nextFlight id run)] := by
  have hoffer := Quiet.offered p id run w
  rw [submit_eq] at h
  cases hv : (w.submitAnswer p run).1.verdict with
  | error e => simp [hv] at h
  | ok =>
    simp only [hv, Prod.mk.injEq, true_and] at h
    subst h
    have hland := Quiet.landAll p (w.submitAnswer p run).1.ended
      ((w.offered p id run).note (.submitted (w.nextFlight id run)))
    refine ⟨hland.config.trans hoffer.config, hland.transfers.trans ?_⟩
    rw [← hoffer.transfers]
    exact Ambient.transfers_note _ _

/-- The runs that a plan feeds to the channels. -/
theorem feed_ok {id : TaskId} {runs : List Run} {w w' : World ε}
    (h : Sink.feed (fun run w => w.submit p id run) runs w = (.ok (), w')) :
    w'.core.config = w.core.config ∧ ∃ flights, Submits id runs flights ∧
      w'.transfers = w.transfers ++ flights.map .submitted := by
  induction runs generalizing w with
  | nil =>
    obtain rfl : w = w' := by simpa [Sink.feed] using h
    exact ⟨rfl, [], rfl, by simp⟩
  | cons run rest ih =>
    rw [Sink.feed] at h
    rcases hs : w.submit p id run with ⟨e | _, w₁⟩ <;> rw [hs] at h
    · simp at h
    obtain ⟨hconfig, htrans⟩ := submit_ok p hs
    obtain ⟨hconfig', flights, hflights, htrans'⟩ := ih h
    exact ⟨hconfig'.trans hconfig, w.nextFlight id run :: flights, hflights.cons run _,
      by rw [htrans', htrans]; simp⟩

theorem submitAll_ok {task : Task} {region : Region} {extents : List Extent} {w w' : World ε}
    (h : w.submitAll p task region extents = (.ok (), w')) :
    w'.core.config = w.core.config ∧ ∃ runs flights,
      planRuns region.layout task.start extents = .ok runs ∧ Submits task.id runs flights ∧
      w'.transfers = w.transfers ++ flights.map .submitted := by
  unfold World.submitAll at h
  dsimp only at h
  rw [Cursor.drive_eq_feed] at h
  unfold planRuns
  generalize (Cursor.mk region.layout task.start none).drive collect extents [] = plan at h ⊢
  obtain ⟨answer, collected⟩ := plan
  dsimp only at h ⊢
  rcases hf : Sink.feed (fun run w => w.submit p task.id run) collected.reverse w with
    ⟨reason | _, w₁⟩ <;> rw [hf] at h
  · simp at h
  cases answer with
  | error stop => cases h
  | ok =>
    obtain rfl : w₁ = w' := congrArg Prod.snd h
    obtain ⟨hconfig, flights, hflights, htrans⟩ := feed_ok p hf
    exact ⟨hconfig, _, flights, rfl, hflights, htrans⟩

/-- The world in which a launch begins to submit, once its task has got the page references. -/
def supplied (task : Task) (extents : List Extent) (pins : List PinSet) (w : World ε) : World ε :=
  (w.retain p task.id pins).log (.resolved task.id extents.length task.length)

theorem launch_of_resolve {p : Platform ε} {task : Task} {extents : List Extent}
    {pins : List PinSet} {w w₁ : World ε} (hf : w.core.tasks.table.find? task.id = some task)
    (h : w.resolve p task.holds.file task.chunks = (.ok (extents, pins), w₁)) :
    w.launch p task = (((w₁.supplied p task extents pins).submitAll p task task.holds.region extents).1,
      ((w₁.supplied p task extents pins).submitAll p task task.holds.region extents).2.finish p
        task.id) := by
  unfold World.launch supplied
  rw [hf]
  dsimp only
  rw [h]

theorem launch_of_unresolved {p : Platform ε} {task : Task} {stop : Unresolved} {w w₁ : World ε}
    (hf : w.core.tasks.table.find? task.id = some task)
    (h : w.resolve p task.holds.file task.chunks = (.error stop, w₁)) :
    w.launch p task = (.error stop.error,
      (((w₁.log (.unresolved task.id stop.error)).releaseAll p stop.pins).cleanup p task.id).2) := by
  unfold World.launch
  rw [hf]
  dsimp only
  rw [h]

/-- Launching a registered task. -/
theorem launch_ok {task registered : Task} {w w' : World ε}
    (hc : ∀ c ∈ task.chunks, c.IsRange) (hps : Word.isPowerOfTwo w.core.config.hostPageSize)
    (hr : w.core.tasks.table.find? task.id = some registered)
    (h : w.launch p task = (.ok (), w')) :
    ∃ backings lookups runs flights w₁,
      w.FindsAll p registered.holds.file task.chunks backings w₁ ∧
      Chunk.LocatedAll w.core.config.hostPageSize registered.holds.file task.chunks backings
        lookups ∧
      planRuns registered.holds.region.layout task.start
        (List.zipWith (Chunk.extents w.core.config.hostPageSize) task.chunks backings).flatten =
          .ok runs ∧
      Submits task.id runs flights ∧
      w'.transfers = w.transfers ++ lookups ++ flights.map .submitted := by
  unfold World.launch at h
  simp only [hr] at h
  rcases hres : w.resolve p registered.holds.file task.chunks with ⟨e | ⟨extents, pins⟩, w₁⟩ <;>
    rw [hres] at h
  · simp at h
  obtain ⟨backings, hfinds, rfl, -⟩ := resolve_finds p hc hps hres
  obtain ⟨lookups, hall, -, htrans⟩ := hfinds.located
  dsimp only at h
  have hquiet := (Quiet.retain p task.id pins w₁).trans (Quiet.log _ (.resolved task.id
    (List.zipWith (Chunk.extents w.core.config.hostPageSize) task.chunks backings).flatten.length
    task.length))
  generalize (w₁.retain p task.id pins).log _ = w₂ at h hquiet
  rcases hsub : w₂.submitAll p task registered.holds.region
    (List.zipWith (Chunk.extents w.core.config.hostPageSize) task.chunks backings).flatten with
    ⟨answer, w₃⟩
  rw [hsub] at h
  simp only [Prod.mk.injEq] at h
  obtain ⟨rfl, rfl⟩ := h
  obtain ⟨-, runs, flights, hplan, hflights, htrans'⟩ := submitAll_ok p hsub
  refine ⟨backings, lookups, runs, flights, w₁, hfinds, hall, hplan, hflights, ?_⟩
  rw [(Quiet.finish p task.id w₃).transfers, htrans', hquiet.transfers, htrans]

end World

/-! ## Admission -/

theorem Chunk.addLengths_ok {chunks : List Chunk} {index total sum : Nat}
    (h : Chunk.addLengths index total chunks = .ok sum) :
    (∀ c ∈ chunks, c.IsRange) ∧ sum = total + (chunks.map Chunk.length).sum := by
  induction chunks generalizing index total with
  | nil =>
    obtain rfl : total = sum := by simpa [addLengths] using h
    simp
  | cons c rest ih =>
    rw [addLengths] at h
    split at h
    · rename_i hc
      cases hadd : Word.add? total c.length with
      | none => simp [hadd] at h
      | some next =>
        rw [hadd] at h
        obtain ⟨hrest, rfl⟩ := ih h
        obtain ⟨rfl, -⟩ := Word.add?_eq_some_iff.1 hadd
        refine ⟨fun c' hc' => ?_, by simp [Nat.add_assoc]⟩
        rcases List.mem_cons.1 hc' with rfl | hc'
        · exact hc
        · exact hrest c' hc'
    · simp at h

theorem Chunk.totalLength_ok {chunks : List Chunk} {total : Nat}
    (h : Chunk.totalLength chunks = .ok total) :
    (∀ c ∈ chunks, c.IsRange) ∧ total = (chunks.map Chunk.length).sum := by
  unfold totalLength at h
  split at h
  · simp at h
  · simpa using Chunk.addLengths_ok h

theorem Region.window_ok {r : Region} {offset length start : Nat}
    (h : r.window offset length = .ok start) :
    start = r.offset + offset ∧ start + length ≤ r.mappedLength := by
  unfold window at h
  cases hadd : Word.add? r.offset offset with
  | none => simp [hadd] at h
  | some position =>
    simp only [hadd] at h
    obtain ⟨rfl, -⟩ := Word.add?_eq_some_iff.1 hadd
    cases hstop : Word.add? (r.offset + offset) length with
    | none => simp [hstop] at h
    | some stop =>
      obtain ⟨rfl, -⟩ := Word.add?_eq_some_iff.1 hstop
      simp only [hstop] at h
      split at h
      · simp at h
      · obtain rfl : r.offset + offset = start := by simpa using h
        exact ⟨rfl, by omega⟩

theorem Config.check_ok {c : Config} (h : c.check = .ok ()) : Word.isPowerOfTwo c.hostPageSize := by
  unfold check at h
  split at h
  · simp at h
  split at h
  · simp at h
  split at h
  · assumption
  · simp at h

namespace World

variable {ε : Type} (p : Platform ε)

theorem acquire_ok {handle : Handle} {use : RegionUse} {w w' : World ε}
    (h : w.acquire handle = (.ok use, w')) :
    ∃ before mappings, w.core.mappings.table.find? handle = some before ∧
      use.region = before.region ∧ w' = w.setMappings mappings := by
  unfold World.acquire Mappings.acquire? at h
  cases hf : w.core.mappings.table.find? handle with
  | none => simp [hf] at h
  | some before =>
    simp only [hf, Option.map_some, Prod.mk.injEq, Except.ok.injEq] at h
    obtain ⟨rfl, rfl⟩ := h
    exact ⟨before, _, rfl, rfl, rfl⟩

theorem sourceFile_ok {order : CopyOrder} {file : Option File} {w w' : World ε}
    (h : w.sourceFile p order = (.ok file, w')) :
    Quiet w w' ∧ w'.ambient.outside = w.ambient.outside ∧ ∀ f, file = some f →
      ∃ descriptor, order.descriptor = some descriptor ∧
        p.openFile descriptor w.ambient.outside = .ok f := by
  unfold World.sourceFile liftAmbient Ambient.openChecked Ambient.checkFile at h
  split at h
  · cases hd : order.descriptor with
    | none => simp [hd] at h
    | some descriptor =>
      simp only [hd] at h
      cases ho : p.openFile descriptor w.ambient.outside with
      | error e => simp [ho] at h
      | ok f =>
        simp only [ho] at h
        cases hk : f.classify w.core.config.hostPageSize (p.provider · w.ambient.outside) with
        | error reason => simp [hk] at h
        | ok kind =>
          simp only [hk, Prod.mk.injEq, Except.ok.injEq] at h
          obtain ⟨rfl, rfl⟩ := h
          refine ⟨⟨rfl, rfl⟩, rfl, fun f' hf' => ⟨descriptor, rfl, ?_⟩⟩
          rw [← Option.some.inj hf']
          exact ho
  · simp only [Prod.mk.injEq, Except.ok.injEq] at h
    obtain ⟨rfl, rfl⟩ := h
    exact ⟨Quiet.refl w, rfl, by simp⟩

/-- A request is admitted with a task. Its chunks add up, its region is registered and has the room
for them, and if it reads from a file, that may be copied from. -/
inductive Admits (order : CopyOrder) (w : World ε) : Task → World ε → Prop where
  | mk {length start : Nat} {use : RegionUse} {file : Option File} {w₁ w₂ : World ε}
      (total : Chunk.totalLength order.chunks = .ok length)
      (acquired : w.acquire order.handle = (.ok use, w₁))
      (window : use.region.window order.offset length = .ok start)
      (opened : w₁.sourceFile p order = (.ok file, w₂)) :
      Admits order w
        { id := w₂.core.tasks.allocate.1, chunks := order.chunks, start, length,
          holds := { region := use.region, file } }
        (w₂.setTasks w₂.core.tasks.allocate.2)

theorem prepare_eq_ok_iff {p : Platform ε} {order : CopyOrder} {task : Task} {w w' : World ε} :
    w.prepare p order = (.ok task, w') ↔ w.Admits p order task w' := by
  constructor
  · intro h
    unfold World.prepare at h
    rcases htotal : Chunk.totalLength order.chunks with fault | length <;> rw [htotal] at h
    · cases h
    dsimp only at h
    rcases hacquire : w.acquire order.handle with ⟨e | use, w₁⟩ <;> rw [hacquire] at h
    · cases h
    simp only [World.window] at h
    rcases hwindow : use.region.window order.offset length with fault | start <;>
      rw [hwindow] at h
    · cases h
    dsimp only at h
    rcases hfile : w₁.sourceFile p order with ⟨e | file, w₂⟩ <;> rw [hfile] at h
    · cases h
    cases h
    exact .mk htotal hacquire hwindow hfile
  · rintro ⟨htotal, hacquire, hwindow, hfile⟩
    unfold World.prepare World.window
    rw [htotal]
    dsimp only
    rw [hacquire]
    dsimp only
    rw [hwindow]
    dsimp only
    rw [hfile]

/-- The task of a request that is admitted. -/
structure Prepared (order : CopyOrder) (w : World ε) (task : Task) : Prop where
  chunks : task.chunks = order.chunks
  ranges : ∀ c ∈ order.chunks, c.IsRange
  region : ∃ use, w.core.mappings.table.find? order.handle = some use ∧
    task.holds.region = use.region
  start : task.start = task.holds.region.offset + order.offset
  file : ∀ f, task.holds.file = some f →
    ∃ descriptor, order.descriptor = some descriptor ∧
      p.openFile descriptor w.ambient.outside = .ok f
  inside : task.start + (order.chunks.map Chunk.length).sum ≤ task.holds.region.mappedLength

theorem prepare_ok {order : CopyOrder} {task : Task} {w w' : World ε}
    (h : w.prepare p order = (.ok task, w')) : Quiet w w' ∧ Prepared p order w task := by
  obtain ⟨htotal, hacquire, hwindow, hfile⟩ := prepare_eq_ok_iff.1 h
  obtain ⟨before, mappings, hfind, hregion, rfl⟩ := acquire_ok hacquire
  obtain ⟨hranges, hlength⟩ := Chunk.totalLength_ok htotal
  obtain ⟨hstart, hinside⟩ := Region.window_ok hwindow
  obtain ⟨hquiet, -, hopen⟩ := sourceFile_ok p hfile
  refine ⟨((Quiet.setMappings w mappings).trans hquiet).trans (Quiet.setTasks _ _), ?_⟩
  exact
    { chunks := rfl
      ranges := hranges
      region := ⟨before, hfind, hregion⟩
      start := hstart
      file := hopen
      inside := hlength ▸ hinside }

/-- To admit a request has no effect on the surroundings. -/
theorem prepare_outside {order : CopyOrder} {task : Task} {w w' : World ε}
    (h : w.prepare p order = (.ok task, w')) : w'.ambient.outside = w.ambient.outside := by
  obtain ⟨-, hacquire, -, hfile⟩ := prepare_eq_ok_iff.1 h
  obtain ⟨before, mappings, -, -, rfl⟩ := acquire_ok hacquire
  exact (sourceFile_ok p hfile).2.1

/-- The world in which a task is launched. -/
def enrolled (task : Task) (w : World ε) : World ε :=
  (w.setTasks (w.core.tasks.register task)).log (.admitted task.id)

theorem find?_enrolled (task : Task) (w : World ε) :
    (w.enrolled task).core.tasks.table.find? task.id = some task :=
  (Sharded.find?_insert ..).trans (if_pos rfl)

theorem copyAsync_of_prepare {p : Platform ε} {order : CopyOrder} {task : Task} {w w₁ : World ε}
    (h : w.prepare p order = (.ok task, w₁)) :
    w.copyAsync p order = (((w₁.enrolled task).launch p task).1.map fun _ => task.id,
      ((w₁.enrolled task).launch p task).2) := by
  unfold copyAsync enrolled
  rw [h]
  dsimp only
  generalize World.launch p task _ = answer
  obtain ⟨e | _, w'⟩ := answer <;> rfl

/-- What a request that succeeds leaves in the history: the look-ups of its sources, then the
submissions of the runs of its plan. The look-ups begin with the surroundings as they are. -/
theorem copyAsync_ok {order : CopyOrder} {use : RegionUse} {id : TaskId} {w w' : World ε}
    (hps : Word.isPowerOfTwo w.core.config.hostPageSize)
    (hu : w.core.mappings.table.find? order.handle = some use)
    (h : w.copyAsync p order = (.ok id, w')) :
    ∃ file backings lookups runs flights w₁ w₂,
      (∀ c ∈ order.chunks, c.IsRange) ∧
      (∀ f, file = some f → ∃ descriptor, order.descriptor = some descriptor ∧
        p.openFile descriptor w.ambient.outside = .ok f) ∧
      Quiet w w₁ ∧ w₁.ambient.outside = w.ambient.outside ∧
      w₁.FindsAll p file order.chunks backings w₂ ∧
      Chunk.LocatedAll w.core.config.hostPageSize file order.chunks backings lookups ∧
      planRuns use.region.layout (use.region.offset + order.offset)
        (List.zipWith (Chunk.extents w.core.config.hostPageSize) order.chunks backings).flatten =
          .ok runs ∧
      Submits id runs flights ∧
      w'.transfers = w.transfers ++ lookups ++ flights.map .submitted := by
  rcases hprepare : w.prepare p order with ⟨e | task, w₁⟩
  · unfold World.copyAsync at h
    rw [hprepare] at h
    cases h
  obtain ⟨hquiet, hchunks, hranges, ⟨use', huse', hregion⟩, hstart, hfile⟩ := prepare_ok p hprepare
  obtain rfl : use' = use := Option.some.inj (huse'.symm.trans hu)
  have houtside := prepare_outside p hprepare
  have hquiet' : Quiet w (w₁.enrolled task) :=
    (hquiet.trans (Quiet.setTasks w₁ _)).trans (Quiet.log _ _)
  rw [copyAsync_of_prepare hprepare] at h
  rcases hlaunch : (w₁.enrolled task).launch p task with ⟨e | _, w₂⟩ <;> rw [hlaunch] at h
  · cases h
  cases h
  obtain ⟨backings, lookups, runs, flights, w₃, hfinds, hall, hplan, hflights, htrans⟩ :=
    launch_ok p (hchunks ▸ hranges) (hquiet'.config ▸ hps) (find?_enrolled task w₁) hlaunch
  rw [hchunks] at hfinds
  rw [hquiet'.config, hchunks] at hall hplan
  rw [hstart, hregion] at hplan
  rw [hquiet'.transfers] at htrans
  exact ⟨_, backings, lookups, runs, flights, _, w₃, hranges, hfile, hquiet',
    houtside, hfinds, hall, hplan, hflights, htrans⟩

end World

/-! ## Bytes -/

namespace Chunk

/-- Where the bytes of chunks are read from, one chunk after the other. -/
def bytesAt (pageSize : Nat) (chunks : List Chunk) (backings : List Backing) :
    List (Option (Channel × Nat)) :=
  (List.zipWith (fun c b => (List.range c.length).map (byteAt pageSize c b)) chunks backings).flatten

theorem bytes_extentsAll {pageSize : Nat} {file : Option File} {chunks : List Chunk}
    {backings : List Backing} {events : List Event} (hp : 0 < pageSize)
    (hc : ∀ c ∈ chunks, c.IsRange) (h : LocatedAll pageSize file chunks backings events) :
    ((List.zipWith (extents pageSize) chunks backings).flatten.flatMap Extent.bytes).map some =
      bytesAt pageSize chunks backings := by
  induction h with
  | nil => rfl
  | @cons c b events chunks backings more hfirst hrest ih =>
    have hpos := (hc c (by simp)).1
    unfold bytesAt at ih ⊢
    rw [List.zipWith_cons_cons, List.zipWith_cons_cons, List.flatten_cons, List.flatten_cons,
      List.flatMap_append, List.map_append, ih fun c hm => hc c (by simp [hm]),
      bytes_extents hp (by omega) hfirst]

/-- What is read from host memory lies on a page that the chunks have a reference to. -/
theorem mem_bytesAt {pageSize a : Nat} (hp : 0 < pageSize) {chunks : List Chunk}
    {backings : List Backing} (h : some (.memory, a) ∈ bytesAt pageSize chunks backings) :
    ∃ page ∈ (backings.flatMap Backing.pins).flatMap PinSet.pages,
      page.dma.raw ≤ a ∧ a < page.dma.raw + pageSize := by
  obtain ⟨bytes, hbytes, hmem⟩ := List.mem_flatten.1 h
  obtain ⟨i, hi, rfl⟩ := List.getElem_of_mem hbytes
  rw [List.getElem_zipWith] at hmem
  obtain ⟨k, -, hk⟩ := List.mem_map.1 hmem
  rw [List.length_zipWith] at hi
  have hb : backings[i] ∈ backings := List.getElem_mem _
  generalize backings[i] = b at hk hb
  obtain ⟨place, hplace, hbyte⟩ := Option.map_eq_some_iff.1 hk
  have hin := b.page?_mem_pins (List.mem_of_getElem? hplace)
  have hmod := Nat.mod_lt ((chunks[i].start + k)) hp
  cases place with
  | block number => simp [Place.byte] at hbyte
  | cached page =>
    simp only [Place.byte, Prod.mk.injEq, true_and] at hbyte
    refine ⟨page, ?_, by omega, by omega⟩
    rw [List.flatMap_assoc]
    exact List.mem_flatMap.2 ⟨b, hb, hin page rfl⟩

theorem length_bytesAt {pageSize : Nat} {file : Option File} {chunks : List Chunk}
    {backings : List Backing} {events : List Event}
    (h : LocatedAll pageSize file chunks backings events) :
    (bytesAt pageSize chunks backings).length = (chunks.map length).sum := by
  unfold bytesAt
  induction h with
  | nil => rfl
  | cons _ _ ih => simp [ih]

end Chunk

/-- The destination stays inside one page of a region. -/
def Request.InPage (q : Request) (r : Region) : Prop :=
  ∃ page ∈ r.pages, ∃ within, q.target.raw = (page.raw + within) % Word.bound ∧
    within + q.length ≤ r.pageSize.bytes

theorem Run.Fits.inPage {r : Run} {region : Region} (h : r.Fits region.layout) :
    r.request.InPage region := by
  obtain ⟨page, hpage, htarget⟩ := Option.map_eq_some_iff.1 h.target
  have hmem : page ∈ region.pages := List.mem_toArray.1 (Array.mem_of_getElem? hpage)
  exact ⟨page, hmem, r.position % region.layout.pageSize,
    (congrArg PhysAddr.raw htarget).symm, h.inside⟩

/-- Byte `k` of a plan goes to position `k` of the destination. -/
theorem planRuns_byte {region : Region} {start : Nat} {extents : List Extent} {runs : List Run}
    (h : planRuns region.layout start extents = .ok runs) {k : Nat}
    (hk : k < (extents.flatMap Extent.bytes).length) :
    ∃ channel source page,
      (runs.flatMap Run.bytes)[k]? =
        some (channel, source, page.offset ((start + k) % region.pageSize.bytes)) ∧
      region.pages[(start + k) / region.pageSize.bytes]? = some page ∧
      (extents.flatMap Extent.bytes)[k]? = some (channel, source) := by
  obtain ⟨htiles, hfits, hbytes⟩ := planRuns_ok region.pageSize.bytes_pos h
  have hsources := Run.bytes_sources runs
  have htargets := Run.bytes_targets htiles hfits
  rw [hbytes] at hsources
  rw [Nat.add_sub_cancel_left, ← length_flatMap_bytes] at htargets
  have hlt : k < (runs.flatMap Run.bytes).length := by
    have := congrArg List.length hsources
    rw [List.length_map] at this
    omega
  obtain ⟨⟨channel, source, target⟩, hb⟩ : ∃ b, (runs.flatMap Run.bytes)[k]? = some b :=
    ⟨_, List.getElem?_eq_getElem hlt⟩
  have hs := congrArg (·[k]?) hsources
  have ht := congrArg (·[k]?) htargets
  simp only [List.getElem?_map, hb, Option.map_some, List.getElem?_range hk,
    Option.some.injEq] at hs ht
  obtain ⟨page, hpage, rfl⟩ := Option.map_eq_some_iff.1 ht.symm
  exact ⟨channel, source, page, hb, by simpa [Region.layout] using hpage, hs.symm⟩

/-- **Copies are correct.** A request that succeeds has asked where its sources are, and then has had
submissions taken by the channels.

* The look-ups begin with the surroundings as they are. The pages of a host chunk are pinned at
  once. Each page of a file chunk is looked up in the page cache, and if it is not there, in the
  block map.
* No submission is empty, none crosses an entry of the device's page table, and their lengths add up
  to that of the chunks.
* Byte `k` of the submissions goes to position `offset + k` of the mapping, on the physical page of
  that position, and is read from byte `k` of the chunks: from the pinned page of that byte, from the
  page in the page cache, or from the disk block. -/
theorem World.copyAsync_transfers {ε : Type} {p : Platform ε} {order : CopyOrder}
    {use : RegionUse} {id : TaskId} {w w' : World ε} (hc : w.core.config.check = .ok ())
    (hu : w.core.mappings.table.find? order.handle = some use)
    (h : w.copyAsync p order = (.ok id, w')) :
    ∃ (file : Option File) (backings : List Backing) (lookups : List Event)
      (flights : List Flight) (w₁ w₂ : World ε),
      (∀ f, file = some f → ∃ descriptor, order.descriptor = some descriptor ∧
        p.openFile descriptor w.ambient.outside = .ok f) ∧
      Quiet w w₁ ∧ w₁.ambient.outside = w.ambient.outside ∧
      w₁.FindsAll p file order.chunks backings w₂ ∧
      Chunk.LocatedAll w.core.config.hostPageSize file order.chunks backings lookups ∧
      w'.transfers = w.transfers ++ lookups ++ flights.map .submitted ∧
      (∀ f ∈ flights, f.task = id ∧ 0 < f.request.length ∧ f.request.InPage use.region) ∧
      (flights.map (·.request.length)).sum = (order.chunks.map Chunk.length).sum ∧
      ∀ k < (order.chunks.map Chunk.length).sum, ∃ channel source page,
        (flights.flatMap Flight.bytes)[k]? = some (channel, source, (page.raw +
          (use.region.offset + order.offset + k) % use.region.pageSize.bytes) % Word.bound) ∧
        use.region.pages[(use.region.offset + order.offset + k) / use.region.pageSize.bytes]? =
          some page ∧
        (Chunk.bytesAt w.core.config.hostPageSize order.chunks backings)[k]? =
          some (some (channel, source)) := by
  have hps := Config.check_ok hc
  obtain ⟨file, backings, lookups, runs, flights, w₁, w₂, hranges, hfile, hquiet, houtside, hfinds,
    hall, hplan, hflights, htrans⟩ := World.copyAsync_ok p hps hu h
  obtain ⟨htiles, hfits, -⟩ := planRuns_ok use.region.pageSize.bytes_pos hplan
  have hbytes := Chunk.bytes_extentsAll (Word.isPowerOfTwo_pos hps) hranges hall
  have hlength := Chunk.length_bytesAt hall
  rw [← hbytes, List.length_map] at hlength
  refine ⟨file, backings, lookups, flights, w₁, w₂, hfile, hquiet, houtside, hfinds, hall, htrans,
    ?_, ?_, ?_⟩
  · intro f hf
    obtain ⟨r, hr, htask, -, hrequest⟩ := hflights.mem hf
    rw [hrequest]
    exact ⟨htask, htiles.length_pos r hr, (hfits r hr).inPage⟩
  · have := htiles.sum_length
    rw [hflights.lengths, ← hlength, length_flatMap_bytes]
    omega
  · intro k hk
    rw [← hlength] at hk
    obtain ⟨channel, source, page, hbyte, hpage, hsource⟩ := planRuns_byte hplan hk
    refine ⟨channel, source, page, ?_, hpage, ?_⟩
    · rw [hflights.bytes, List.getElem?_map, hbyte]
      rfl
    · rw [← hbytes, List.getElem?_map, hsource]
      rfl

/-- A disk with a file of four pages, the second of which is in the page cache. -/
def Bench.halfCached : Disk :=
  ({} : Disk).install 3 ⟨{ plainFile .ext4 0x4000 with descriptor := 3 }, [1]⟩

/-- A bench with that disk, and with a region that begins in the middle of one device page and ends
on another. -/
def Bench.unaligned : World Bench :=
  (World.map platform ⟨1⟩ ⟨0x11000⟩ 0x10000 ⟨.create {} {}, ⟨{ disk := halfCached }, []⟩⟩).2

/-- Two pages of host memory and two pages of a file, each time from the middle of the first page to
the middle of the second. Page 0 of the file is read from its disk block, in two parts that go to two
device pages, and page 1 from the page cache. -/
theorem World.copyAsync_transfers_mixed :
    let order : CopyOrder := ⟨⟨1⟩, some 3, 0xE800, [.host 0x5F00 0x200, .file 0x800 0x1000]⟩
    let submissions : List (Channel × Request) :=
      [(.memory, ⟨0x800000005F00, ⟨0x400000F800⟩, 0x200⟩),
        (.storage, ⟨0x1000800, ⟨0x400000FA00⟩, 0x600⟩),
        (.storage, ⟨0x1000E00, ⟨0x4000020000⟩, 0x200⟩),
        (.memory, ⟨0xC00000001000, ⟨0x4000020200⟩, 0x800⟩)]
    let w := Bench.unaligned
    w.core.config.check = .ok () ∧
      ∃ use w', w.core.mappings.table.find? ⟨1⟩ = some use ∧
        w.copyAsync Bench.platform order = (.ok ⟨1⟩, w') ∧
        w'.transfers = [.hostPinned 0x5000 2 [⟨⟨0x800000005000⟩⟩, ⟨⟨0x800000006000⟩⟩],
          .blockFound 3 0 0x1000, .cacheHit 3 1 ⟨⟨0xC00000001000⟩⟩] ++
            submissions.zipIdx.map (fun (s, serial) => .submitted ⟨⟨serial⟩, ⟨1⟩, s.1, s.2⟩) ∧
        ∃ (file : Option File) (backings : List Backing) (lookups : List Event)
          (flights : List Flight) (w₁ w₂ : World Bench),
          w₁.FindsAll Bench.platform file order.chunks backings w₂ ∧
          w'.transfers = w.transfers ++ lookups ++ flights.map .submitted ∧
          (flights.map (·.request.length)).sum = 0x1200 := by
  intro order submissions w
  have hc : w.core.config.check = .ok () := by decide +kernel
  obtain ⟨use, hu⟩ := Option.isSome_iff_exists.1
    (show (w.core.mappings.table.find? ⟨1⟩).isSome by decide +kernel)
  have hid : (w.copyAsync Bench.platform order).1.toOption = some ⟨1⟩ := by decide +kernel
  have htransfers : (w.copyAsync Bench.platform order).2.transfers =
      [.hostPinned 0x5000 2 [⟨⟨0x800000005000⟩⟩, ⟨⟨0x800000006000⟩⟩],
        .blockFound 3 0 0x1000, .cacheHit 3 1 ⟨⟨0xC00000001000⟩⟩] ++
          submissions.zipIdx.map (fun (s, serial) => .submitted ⟨⟨serial⟩, ⟨1⟩, s.1, s.2⟩) := by
    decide +kernel
  rcases h : w.copyAsync Bench.platform order with ⟨e | id, w'⟩ <;> rw [h] at hid htransfers
  · cases hid
  obtain rfl : id = ⟨1⟩ := Option.some.inj hid
  obtain ⟨file, backings, lookups, flights, w₁, w₂, -, -, -, hfinds, -, htrans, -, hsum, -⟩ :=
    copyAsync_transfers hc hu h
  exact ⟨hc, use, w', hu, rfl, htransfers, file, backings, lookups, flights, w₁, w₂, hfinds, htrans,
    hsum⟩

end PeerDma
