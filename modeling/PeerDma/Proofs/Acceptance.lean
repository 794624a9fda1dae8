import PeerDma.Proofs.Maps
import PeerDma.Proofs.Refusals

/-!
# Requests that are accepted

Most of what can go wrong in a copy is checked before its task exists: that each chunk is a range,
that there is a file if a chunk needs one, and that the chunks fit into the region, which its page
table covers. What is left for the launch are the surroundings: pages that cannot be pinned or
found, and channels that refuse a run.

* `Region.window_ok_iff`: positions in a region, by exact arithmetic.
* `World.resolve_error_iff`: sources fail where the surroundings do, and nowhere else.
* `World.Refuses`, `World.feed_error_iff`: a channel refuses a run, after those before it.
* `World.LaunchFails`, `World.launch_error_iff`: the ways for the launch of an accepted request to
  fail.
* `Reach.accepted_fits`: what has been accepted fits, so that the other errors do not occur.
-/

namespace PeerDma

variable {ε : Type} {p : Platform ε}

/-! ## Windows -/

/-- In a region that ends within the address space, nothing saturates or wraps. -/
theorem Region.window_ok_iff {r : Region} (hfits : r.mappedLength < Word.bound)
    {offset length start : Nat} :
    r.window offset length = .ok start ↔
      start = r.offset + offset ∧ offset + length ≤ r.length := by
  refine ⟨fun h => ?_, fun ⟨hstart, hle⟩ => ?_⟩
  · obtain ⟨hstart, hle⟩ := window_ok h
    unfold mappedLength at hle
    exact ⟨hstart, by omega⟩
  · unfold mappedLength at hfits
    have hposition : Word.add? r.offset offset = some start :=
      Word.add?_eq_some_iff.2 ⟨hstart.symm, by omega⟩
    have hstop : Word.add? start length = some (start + length) :=
      Word.add?_eq_some_iff.2 ⟨rfl, by omega⟩
    unfold window
    rw [hposition]
    dsimp only
    rw [hstop]
    exact if_neg (by unfold mappedLength; omega)

theorem World.window_eq {r : Region} (hfits : r.mappedLength < Word.bound) (offset length : Nat)
    (w : World ε) : (w.window r offset length).1 =
      if offset + length ≤ r.length then .ok (r.offset + offset) else .error .invalidArgument := by
  unfold window
  cases hwindow : r.window offset length with
  | ok start =>
    obtain ⟨rfl, hle⟩ := (Region.window_ok_iff hfits).1 hwindow
    exact (if_pos hle).symm
  | error fault =>
    refine (if_neg fun hle => ?_).symm
    cases hwindow.symm.trans ((Region.window_ok_iff hfits).2 ⟨rfl, hle⟩)

/-! ## Sources -/

namespace World

/-- A page that cannot be read is not in the page cache, and its block is not found or has no
address. -/
theorem PageFails.of_locateAll {pageSize offset length : Nat} {file : File} {pins : PinSet}
    {a a' : Ambient ε} {e : Error}
    (h : a.locateAll p pageSize file offset length pins = (.error e, a')) :
    PageFails p pageSize file offset length a e := by
  fun_induction Ambient.locateAll p pageSize file offset length pins a with
  | case1 => cases h
  | case2 offset length pins a hpos span _ e' a₁ hlocate =>
    cases h
    rcases hc : p.cachedPage file span.index a.outside with ⟨_ | page, x⟩
    · rw [Ambient.locate_of_uncached p hc] at hlocate
      rcases hb : p.resolveBlock file span.index x with ⟨e'' | number, x'⟩ <;> rw [hb] at hlocate
      · cases hlocate
        exact .block hpos hc hb
      · dsimp only at hlocate
        split at hlocate
        · cases hlocate
        · next hfar =>
          cases hlocate
          exact .address hpos hc hb (Nat.not_lt.1 hfar)
    · rw [Ambient.locate_of_cached p hc] at hlocate
      cases hlocate
  | case3 offset length pins a hpos span _ extent page a₁ hlocate e' a₂ hrest ih =>
    cases h
    obtain ⟨place, hfinds, hnear, -⟩ := (Ambient.locate_ok_iff p).1 hlocate
    exact .later hpos hfinds hnear (ih hrest)
  | case4 => cases h

/-- A chunk that is a range, with a file if it needs one, fails where the surroundings do. -/
theorem ChunkFails.of_resolveChunk {file : Option File} {chunk : Chunk} {w w' : World ε} {e : Error}
    (hrange : chunk.IsRange) (hfile : chunk.isFile → ∃ f, file = some f)
    (h : w.resolveChunk p file chunk = (.error e, w')) :
    ChunkFails p w.core.config.hostPageSize file chunk w.ambient e := by
  cases chunk with
  | host address length =>
    have hstop : Word.add? address length = some (address + length) :=
      Word.add?_eq_some_iff.2 ⟨rfl, hrange.2⟩
    unfold World.resolveChunk resolveHost pinHost at h
    dsimp only at h
    rw [hstop] at h
    dsimp only at h
    rcases hpin : (p.pinHost (Word.alignDown address w.core.config.hostPageSize)
      (Word.ceilDiv (address + length - Word.alignDown address w.core.config.hostPageSize)
        w.core.config.hostPageSize) w.ambient.outside).1.pages with e' | pages <;> rw [hpin] at h
    · cases h
      exact .pin hstop hpin
    · dsimp only at h
      split at h
      · next hfew =>
        cases h
        exact .short hstop hpin hfew
      · cases h
  | file offset length =>
    obtain ⟨f, rfl⟩ := hfile rfl
    have hstop : Word.add? offset length = some (offset + length) :=
      Word.add?_eq_some_iff.2 ⟨rfl, hrange.2⟩
    unfold World.resolveChunk liftAmbient Ambient.resolveFile at h
    dsimp only at h
    rw [hstop] at h
    dsimp only at h
    rcases hall : w.ambient.locateAll p w.core.config.hostPageSize f offset length {} with
      ⟨e' | found, a⟩ <;> rw [hall] at h
    · cases h
      exact .page rfl hstop (.of_locateAll hall)
    · cases h

/-- Sources fail where the surroundings do. -/
theorem resolve_error_iff {file : Option File} {chunks : List Chunk} {w : World ε} {e : Error}
    (hranges : ∀ c ∈ chunks, c.IsRange) (hfile : ∀ c ∈ chunks, c.isFile → ∃ f, file = some f) :
    (∃ pins w', w.resolve p file chunks = (.error ⟨e, pins⟩, w')) ↔
      SourcesFail p file chunks w e := by
  refine ⟨?_, SourcesFail.resolve⟩
  rintro ⟨pins, w', h⟩
  fun_induction resolve p file chunks w generalizing w' pins with
  | case1 => cases h
  | case2 chunk rest w e' w₁ hchunk =>
    cases h
    exact .here (.of_resolveChunk (hranges chunk (List.mem_cons_self ..))
      (hfile chunk (List.mem_cons_self ..)) hchunk)
  | case3 chunk rest w extents found w₁ hchunk stop w₂ hrest ih =>
    cases h
    exact .later hchunk (ih (fun c hc => hranges c (List.mem_cons_of_mem _ hc))
      (fun c hc => hfile c (List.mem_cons_of_mem _ hc)) _ _ hrest)
  | case4 => cases h

/-! ## Launches -/

section

variable (p : Platform ε)

/-- A channel refuses a run, and those before it have been taken. -/
inductive Refuses (id : TaskId) : List Run → World ε → Error → Prop where
  | here {run : Run} {rest : List Run} {w : World ε} {e : Error}
      (refuses : (w.submitAnswer p run).1.verdict = .error e) : Refuses id (run :: rest) w e
  | later {run : Run} {rest : List Run} {w w₁ : World ε} {e : Error}
      (taken : w.submit p id run = (.ok (), w₁)) (refuses : Refuses id rest w₁ e) :
      Refuses id (run :: rest) w e

/-- The launch of a task fails with an error: a chunk cannot be read, or a channel refuses a run of
the plan. -/
inductive LaunchFails (task : Task) (w : World ε) : Error → Prop where
  | sources {e : Error} (fails : SourcesFail p task.holds.file task.chunks w e) :
      LaunchFails task w e
  | channel {extents : List Extent} {pins : List PinSet} {runs : List Run} {w₁ : World ε}
      {e : Error} (resolved : w.resolve p task.holds.file task.chunks = (.ok (extents, pins), w₁))
      (planned : planRuns task.holds.region.layout task.start extents = .ok runs)
      (refuses : Refuses p task.id runs (w₁.supplied p task extents pins) e) :
      LaunchFails task w e

end

theorem submit_error_iff (id : TaskId) {run : Run} {w : World ε} {e : Error} :
    (w.submit p id run).1 = .error e ↔ (w.submitAnswer p run).1.verdict = .error e := by
  rw [submit_eq]
  cases (w.submitAnswer p run).1.verdict with
  | ok => simp
  | error e' => simp

theorem feed_error_iff {id : TaskId} {runs : List Run} {w : World ε} {e : Error} :
    (Sink.feed (fun run w => w.submit p id run) runs w).1 = .error e ↔ Refuses p id runs w e := by
  constructor
  · intro h
    induction runs generalizing w with
    | nil => cases h
    | cons run rest ih =>
      rw [Sink.feed] at h
      rcases hsubmit : w.submit p id run with ⟨e' | _, w₁⟩ <;> rw [hsubmit] at h
      · refine .here ((submit_error_iff id).1 ?_)
        rw [hsubmit]
        exact h
      · exact .later hsubmit (ih h)
  · intro h
    induction h with
    | @here run rest w e refuses =>
      have hsubmit := (submit_error_iff id).2 refuses
      rw [Sink.feed]
      generalize w.submit p id run = answer at hsubmit
      obtain ⟨_ | _, w₁⟩ := answer <;> cases hsubmit
      rfl
    | later taken refuses ih =>
      rw [Sink.feed, taken]
      exact ih

/-- Sources with a plan are not outside the page table: a launch answers as the channels do. -/
theorem submitAll_fst {task : Task} {r : Region} {extents : List Extent} {runs : List Run}
    {w : World ε} (h : planRuns r.layout task.start extents = .ok runs) :
    (w.submitAll p task r extents).1 =
      (Sink.feed (fun run w => w.submit p task.id run) runs w).1 := by
  unfold submitAll
  dsimp only
  rw [drive_of_planRuns _ h]
  rcases Sink.feed (fun run (w : World ε) => w.submit p task.id run) runs w with ⟨_ | _, w'⟩ <;> rfl

/-! ## Acceptance -/

/-- A request with a chunk that reads a file is accepted with a file. -/
theorem exists_file_of_sourceFile {order : CopyOrder} {file : Option File} {w w' : World ε}
    (hneeds : Chunk.needsFile order.chunks) (h : w.sourceFile p order = (.ok file, w')) :
    ∃ f, file = some f := by
  unfold sourceFile at h
  rw [if_pos hneeds] at h
  split at h
  · cases h
  · split at h
    · cases h
    · next f w₁ hopen =>
      cases h
      exact ⟨f, rfl⟩

theorem exists_file_of_prepare {order : CopyOrder} {task : Task} {w w₁ : World ε}
    (h : w.prepare p order = (.ok task, w₁)) (hneeds : Chunk.needsFile task.chunks) :
    ∃ f, task.holds.file = some f := by
  obtain ⟨-, -, -, hfile⟩ := prepare_eq_ok_iff.1 h
  exact exists_file_of_sourceFile hneeds hfile

/-- The launch of a task fails where the surroundings do, if its chunks are ranges, with a file if
one of them needs it, and its sources have a plan. -/
theorem launch_error_iff {task : Task} {w : World ε} {e : Error}
    (hfind : w.core.tasks.table.find? task.id = some task)
    (hranges : ∀ c ∈ task.chunks, c.IsRange)
    (hfile : ∀ c ∈ task.chunks, c.isFile → ∃ f, task.holds.file = some f)
    (hplans : ∀ extents pins w₁,
      w.resolve p task.holds.file task.chunks = (.ok (extents, pins), w₁) →
      ∃ runs, planRuns task.holds.region.layout task.start extents = .ok runs) :
    (w.launch p task).1 = .error e ↔ LaunchFails p task w e := by
  have hsources := resolve_error_iff (p := p) (w := w) (e := e) hranges hfile
  rcases hresolve : w.resolve p task.holds.file task.chunks with ⟨stop | ⟨extents, pins⟩, w₁⟩
  · rw [launch_of_unresolved hfind hresolve]
    constructor
    · rintro ⟨⟩
      exact .sources (hsources.1 ⟨stop.pins, w₁, hresolve⟩)
    · intro h
      cases h with
      | sources fails =>
        obtain ⟨pins, w', hfails⟩ := hsources.2 fails
        cases hresolve.symm.trans hfails
        rfl
      | channel resolved planned refuses => cases hresolve.symm.trans resolved
  · obtain ⟨runs, hplan⟩ := hplans _ _ _ hresolve
    rw [launch_of_resolve hfind hresolve]
    dsimp only
    rw [submitAll_fst hplan, feed_error_iff]
    refine ⟨.channel hresolve hplan, fun h => ?_⟩
    cases h with
    | sources fails =>
      obtain ⟨pins', w', hfails⟩ := hsources.2 fails
      cases hresolve.symm.trans hfails
    | channel resolved planned refuses =>
      obtain ⟨hfound, rfl⟩ := Prod.mk.inj (hresolve.symm.trans resolved)
      obtain ⟨rfl, rfl⟩ := Prod.mk.inj (Except.ok.inj hfound)
      obtain rfl := Except.ok.inj (hplan.symm.trans planned)
      exact refuses

/-- What the checks of a request have settled when its task is launched. -/
structure Launchable (p : Platform ε) (task : Task) (w : World ε) : Prop where
  /-- The task has not been cleaned up. -/
  registered : w.core.tasks.table.find? task.id = some task
  /-- No chunk ends outside the address space. -/
  ranges : ∀ c ∈ task.chunks, ∃ stop, Word.add? c.start c.length = some stop
  /-- A chunk that reads a file has one. -/
  file : ∀ c ∈ task.chunks, c.isFile → ∃ f, task.holds.file = some f
  /-- The sources have a plan, and no run of it is outside the page table. -/
  inside : ∀ extents pins w₁,
    w.resolve p task.holds.file task.chunks = (.ok (extents, pins), w₁) →
    (∃ runs, planRuns task.holds.region.layout task.start extents = .ok runs) ∧
      ∀ position, ((Cursor.mk task.holds.region.layout task.start none).drive
        (fun run w => w.submit p task.id run) extents (w₁.supplied p task extents pins)).1 ≠
          .error (.outside position)

/-- A request that is accepted, in an instance whose regions are covered, is launchable. -/
theorem launchable_of_prepare {order : CopyOrder} {task : Task} {w w₁ : World ε}
    (hps : Word.isPowerOfTwo w.core.config.hostPageSize)
    (hcovered : ∀ r, w.core.mappings.Lists r → r.Covered)
    (hprepare : w.prepare p order = (.ok task, w₁)) : (w₁.enrolled task).Launchable p task where
  registered := find?_enrolled task w₁
  ranges c hc :=
    ⟨_, Word.add?_eq_some_iff.2 ⟨rfl, ((resolvable hprepare hps).1 c hc).2⟩⟩
  file c hc hfile := exists_file_of_prepare hprepare (List.any_eq_true.2 ⟨c, hc, hfile⟩)
  inside extents pins w₂ hresolve := by
    obtain ⟨runs, hplan⟩ := planRuns_of_resolve hps hcovered hprepare hresolve
    refine ⟨⟨runs, hplan⟩, fun position => ?_⟩
    rw [drive_of_planRuns _ hplan]
    rcases (Sink.feed _ runs _).1 with e | _ <;> nofun

end World

/-! ## After any run -/

/-- **What is accepted fits.** Take any run.

* Let a map succeed at any moment of it, and let `r` be the region that it registers. From then on,
  `size` bytes `offset` bytes past the caller's address are in the region if and only if they are by
  exact arithmetic, and then they are at position `r.offset + offset`. Else the argument is invalid.
* Let a request be accepted after the run. Its task is registered when it is launched, its chunks
  are ranges, with a file if one of them needs it, and no run is outside the page table. The answer
  of the request is that of the launch.
* The launch fails if and only if the surroundings fail it: host pages cannot be pinned or too few
  of them are, the block of a file page is not found or its address is not a word, or a channel
  refuses a run. The error is theirs, a bad address if pages are missing, and an invalid argument if
  the address of a block is not a word. -/
theorem Reach.accepted_fits {s : System ε} (hs : Reach p (fun _ => True) s) :
    (∀ m, Moves p True s.moment m → ∀ owner address length mapping w',
      m.world.map p owner address length = (.ok mapping, w') →
      ∃ r : Region, w'.core.mappings.table.find? mapping.handle = some { region := r } ∧
        r.length = length ∧
        ∀ (w : World ε) (offset size : Nat), (w.window r offset size).1 =
          if offset + size ≤ r.length then .ok (r.offset + offset)
          else .error .invalidArgument) ∧
    ∀ order task w₁, s.world.prepare p order = (.ok task, w₁) →
      let w := w₁.enrolled task
      w.Launchable p task ∧
      (s.world.copyAsync p order).1 = (w.launch p task).1.map (fun _ => task.id) ∧
      ∀ e, (w.launch p task).1 = .error e ↔ w.LaunchFails p task e := by
  refine ⟨fun m hm owner address length mapping w' hmap => ?_, fun order task w₁ hprepare => ?_⟩
  · have hready := hs.ready hm
    obtain ⟨m', new, hends, hleads⟩ := World.map_ends p hready.idle owner address length
    rw [hmap] at hends hleads
    obtain ⟨-, hword, -⟩ := hends.isOk_iff.1 ⟨_, rfl⟩
    obtain ⟨r, rfl, hh, -, hspans, hfind⟩ := hends.registered hready
    have hfits : r.mappedLength < Word.bound := by
      have hstarts := hspans.starts
      have hlength := hspans.length
      unfold Region.mappedLength
      omega
    refine ⟨r, ?_, hspans.length, fun w offset size => World.window_eq hfits offset size w⟩
    rw [hleads.core]
    exact (hfind _).trans (if_pos hh)
  · have hps := hs.isPowerOfTwo (Or.inl trivial : True ∨ p.CleansNothing) fun _ _ _ => trivial
    have hlaunchable := World.launchable_of_prepare hps hs.covered hprepare
    refine ⟨hlaunchable, by rw [World.copyAsync_of_prepare hprepare], fun e => ?_⟩
    exact World.launch_error_iff hlaunchable.registered (World.resolvable hprepare hps).1
      hlaunchable.file fun extents pins w₂ hresolve => (hlaunchable.inside _ _ _ hresolve).1

/-- A request for eight pages, of which three can be pinned. -/
theorem Reach.accepted_fits_scarce :
    let order : CopyOrder := ⟨⟨1⟩, none, 0x1000, [.host 0x5000 0x8000]⟩
    Reach Bench.hookless (fun _ => True) Bench.scarce ∧
      (∃ mapping w' r,
        Bench.scarce.world.map Bench.hookless ⟨7⟩ ⟨0x100012345⟩ 0x20000 = (.ok mapping, w') ∧
        w'.core.mappings.table.find? mapping.handle = some { region := r } ∧
        (w'.window r 0x1fff0 0x10).1 = .ok (r.offset + 0x1fff0) ∧
        (w'.window r 0x1fff0 0x11).1 = .error .invalidArgument) ∧
      ∃ task w₁, Bench.scarce.world.prepare Bench.hookless order = (.ok task, w₁) ∧
        (w₁.enrolled task).LaunchFails Bench.hookless task .badAddress := by
  intro order
  have hs : Reach Bench.hookless (fun _ => True) Bench.scarce :=
    .call (@start _ _ _ {} {} { host := { limit := some 3 } } _ rfl) _ trivial
  obtain ⟨hmaps, hrequests⟩ := accepted_fits hs
  refine ⟨hs, ?_, ?_⟩
  · have hok : (Bench.scarce.world.map Bench.hookless ⟨7⟩ ⟨0x100012345⟩ 0x20000).1 =
        .ok ⟨⟨2⟩, .size64K, 3⟩ := by decide +kernel
    have hmap := hmaps _ .refl ⟨7⟩ ⟨0x100012345⟩ 0x20000
    dsimp only [System.moment] at hmap
    generalize Bench.scarce.world.map Bench.hookless ⟨7⟩ ⟨0x100012345⟩ 0x20000 = answer
      at hok hmap ⊢
    obtain ⟨answer, w'⟩ := answer
    dsimp only at hok
    obtain rfl := hok
    obtain ⟨r, hfind, hlength, hwindow⟩ := hmap _ _ rfl
    refine ⟨_, w', r, rfl, hfind, ?_, ?_⟩ <;> rw [hwindow, hlength]
    · exact if_pos (by decide)
    · exact if_neg (by decide)
  · have hanswer : (Bench.scarce.world.copyAsync Bench.hookless order).1 = .error .badAddress := by
      decide +kernel
    have hok : (Bench.scarce.world.prepare Bench.hookless order).1.isOk := by decide +kernel
    rcases hprepare : Bench.scarce.world.prepare Bench.hookless order with ⟨e | task, w₁⟩ <;>
      rw [hprepare] at hok
    · cases hok
    · obtain ⟨-, hcopy, hlaunch⟩ := hrequests order task w₁ hprepare
      refine ⟨task, w₁, rfl, (hlaunch .badAddress).1 ?_⟩
      have hcopied := hcopy.symm.trans hanswer
      cases hl : ((w₁.enrolled task).launch Bench.hookless task).1 with
      | ok => rw [hl] at hcopied; cases hcopied
      | error e => rw [hl] at hcopied; exact congrArg _ (Except.error.inj hcopied)

end PeerDma
