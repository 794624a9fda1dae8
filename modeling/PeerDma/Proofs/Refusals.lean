import PeerDma.Proofs.Conservation
import PeerDma.Proofs.Failures
import PeerDma.Proofs.Launches
import PeerDma.Proofs.Tokens

/-!
# Submissions that are refused

A launch hands the runs of its plan to the channels one after the other. When a channel refuses one
and drops its token, the launch is over: the runs before it have been taken and stay with their
channels, the rest is not submitted, and the request is answered with the reason of the channel. The
task lives on until the last of the runs that were taken has ended.

* `World.attempts`: the submissions of a launch and what came of them.
* `World.copyAsync_cutOff`: what a request whose launch is cut off leaves behind.
* `Move.settled`: a task whose launch has its pages stays registered as long as it is busy.
* `Moment.Awaits`: a task waits for its submissions to end.
* `Reach.refusals_drain`: from the refusal to the end of the task.
-/

namespace PeerDma

variable {ε : Type}

/-- The task once it has been given page references. -/
def Task.supplied (pins : List PinSet) (task : Task) : Task :=
  { task with holds := { task.holds with pins := task.holds.pins ++ pins } }

/-! ## Attempts -/

/-- What came of a submission. -/
structure Attempt where
  run : Run
  /-- The reason for which the channel refuses it, if it does. -/
  refusal : Option Error
  /-- Whether the channel has used the token up by then. -/
  dropped : Bool
  deriving DecidableEq, Repr

namespace World

variable (p : Platform ε)

/-- What is about to come of a submission. -/
def outcome (run : Run) (w : World ε) : Attempt where
  run
  refusal :=
    match (w.submitAnswer p run).1.verdict with
    | .ok () => none
    | .error e => some e
  dropped := decide (⟨w.core.flights.next⟩ ∈ (w.submitAnswer p run).1.ended)

/-- Hands a run to its channel and takes down what comes of it. -/
def attempt (id : TaskId) : Sink Error (World ε × List Attempt) := fun run s =>
  ((s.1.submit p id run).1, (s.1.submit p id run).2, s.2 ++ [s.1.outcome p run])

/-- The submissions of a launch, in order, and what came of them. -/
def attempts (task : Task) (extents : List Extent) (w : World ε) : List Attempt :=
  ((Cursor.mk task.holds.region.layout task.start none).drive (attempt p task.id) extents
    (w, [])).2.2

/-- The submissions of runs up to the first that is refused, and what came of them. -/
def tries (id : TaskId) : List Run → World ε → List Attempt
  | [], _ => []
  | run :: rest, w => w.outcome p run ::
    match w.submit p id run with
    | (.error _, _) => []
    | (.ok (), w) => tries id rest w

variable {p}

/-- Taking attempts down changes nothing about them. -/
theorem feed_attempt (id : TaskId) (runs : List Run) (w : World ε) (before : List Attempt) :
    Sink.feed (attempt p id) runs (w, before) =
      ((Sink.feed (fun run w => w.submit p id run) runs w).1,
        (Sink.feed (fun run w => w.submit p id run) runs w).2, before ++ tries p id runs w) := by
  induction runs generalizing w before with
  | nil => simp [Sink.feed, tries]
  | cons run rest ih =>
    rw [Sink.feed, Sink.feed, tries, attempt]
    rcases w.submit p id run with ⟨e | _, w'⟩
    · rfl
    · dsimp only
      rw [ih, List.append_assoc, List.singleton_append]

theorem attempts_of_planRuns {task : Task} {extents : List Extent} {runs : List Run}
    (h : planRuns task.holds.region.layout task.start extents = .ok runs) (w : World ε) :
    w.attempts p task extents = tries p task.id runs w := by
  rw [attempts, drive_of_planRuns _ h, feed_attempt, List.nil_append]

/-- From `w` to `w'`, the first `k` of the runs have been taken, those of the submissions. One more
has got a token, which has been used up. -/
structure CutOff (id : TaskId) (runs : List Run) (k : Nat) (flights : List Flight) (w w' : World ε) :
    Prop where
  submits : Submits id (runs.take k) flights
  transfers : w'.transfers = w.transfers ++ flights.map .submitted
  next : w'.core.flights.next = w.core.flights.next + (k + 1)
  inFlight : ∀ f ∈ w'.core.flights.flights, f ∈ w.core.flights.flights ∨ f ∈ flights

/-- A run is refused and its token dropped. -/
theorem submit_refused (id : TaskId) (runs : List Run) {run : Run} {e : Error} {w : World ε}
    (hrefusal : (w.outcome p run).refusal = some e) (hdropped : (w.outcome p run).dropped) :
    (w.submit p id run).1 = .error e ∧ CutOff id runs 0 [] w (w.submit p id run).2 := by
  have hverdict : (w.submitAnswer p run).1.verdict = .error e := by
    unfold outcome at hrefusal
    cases hv : (w.submitAnswer p run).1.verdict with
    | ok => simp [hv] at hrefusal
    | error e' => simpa [hv] using hrefusal
  have hflights := submit_flights p id run w
  have hended : ⟨w.core.flights.next⟩ ∈ (w.submitAnswer p run).1.ended := of_decide_eq_true hdropped
  have hquiet := (Quiet.offered p id run w).trans
    (Quiet.landAll p (w.submitAnswer p run).1.ended (w.offered p id run))
  refine ⟨by rw [submit_eq, hverdict], rfl, ?_, congrArg Flights.next hflights, fun f hf => ?_⟩
  · rw [submit_eq, hverdict]
    exact hquiet.transfers.trans (List.append_nil _).symm
  · rw [hflights] at hf
    obtain ⟨hmem, hleft⟩ := List.mem_filter.1 hf
    refine .inl ((List.mem_cons.1 hmem).resolve_left ?_)
    rintro rfl
    exact of_decide_eq_true hleft hended

/-- If attempt `k` is refused and its token dropped, it is the last one, and the ones before have been
taken. -/
theorem tries_cutOff {id : TaskId} {runs : List Run} {k : Nat} {run : Run} {e : Error} {w : World ε}
    (h : (tries p id runs w)[k]? = some ⟨run, some e, true⟩) :
    (Sink.feed (fun run w => w.submit p id run) runs w).1 = .error e ∧
      (tries p id runs w).map Attempt.run = runs.take (k + 1) ∧
      ∃ flights, CutOff id runs k flights w
        (Sink.feed (fun run w => w.submit p id run) runs w).2 := by
  induction runs generalizing w k with
  | nil => cases h
  | cons first rest ih =>
    rw [tries] at h ⊢
    rw [Sink.feed]
    cases k with
    | zero =>
      obtain he : w.outcome p first = ⟨run, some e, true⟩ := Option.some.inj h
      obtain ⟨hanswer, hcut⟩ := submit_refused id (first :: rest) (congrArg Attempt.refusal he)
        (congrArg Attempt.dropped he)
      rcases hs : w.submit p id first with ⟨e' | _, w'⟩ <;> rw [hs] at hanswer hcut
      · exact ⟨hanswer, rfl, [], hcut⟩
      · cases hanswer
    | succ k =>
      have hflights := submit_flights p id first w
      rcases hs : w.submit p id first with ⟨e' | _, w'⟩ <;> rw [hs] at h hflights
      · cases h
      · obtain ⟨hanswer, hruns, flights, hcut⟩ := ih h
        refine ⟨hanswer, congrArg (first :: ·) hruns, w.nextFlight id first :: flights, ?_⟩
        refine ⟨hcut.submits.cons first _, ?_, ?_, fun f hf => ?_⟩
        · rw [hcut.transfers, (submit_ok p hs).2, List.append_assoc]
          rfl
        · rw [hcut.next, hflights]
          dsimp only
          omega
        · rcases hcut.inFlight f hf with hold | hnew
          · rw [hflights] at hold
            rcases List.mem_cons.1 (List.mem_filter.1 hold).1 with rfl | hold
            · exact .inr (List.mem_cons_self ..)
            · exact .inl hold
          · exact .inr (List.mem_cons_of_mem _ hnew)

/-! ## The request -/

theorem submitAll_of_planRuns {task : Task} {r : Region} {extents : List Extent} {runs : List Run}
    {e : Error} {w : World ε} (h : planRuns r.layout task.start extents = .ok runs)
    (hfeed : (Sink.feed (fun run w => w.submit p task.id run) runs w).1 = .error e) :
    w.submitAll p task r extents = (.error e,
      (Sink.feed (fun run w => w.submit p task.id run) runs w).2.log (.stopped task.id e)) := by
  unfold submitAll
  dsimp only
  rw [drive_of_planRuns _ h, hfeed]
  rfl

/-- The chunks of a request that is admitted can be resolved. -/
theorem resolvable {order : CopyOrder} {task : Task} {w w₁ : World ε}
    (hprepare : w.prepare p order = (.ok task, w₁))
    (hps : Word.isPowerOfTwo w.core.config.hostPageSize) :
    (∀ c ∈ task.chunks, c.IsRange) ∧
      Word.isPowerOfTwo (w₁.enrolled task).core.config.hostPageSize := by
  obtain ⟨hquiet, hprepared⟩ := prepare_ok p hprepare
  refine ⟨hprepared.chunks ▸ hprepared.ranges, ?_⟩
  rw [show (w₁.enrolled task).core.config = w.core.config from hquiet.config]
  exact hps

/-- The sources of a request that is admitted have a plan: its region has the room. -/
theorem planRuns_of_resolve {order : CopyOrder} {task : Task} {extents : List Extent}
    {pins : List PinSet} {w w₁ w₂ : World ε}
    (hps : Word.isPowerOfTwo w.core.config.hostPageSize)
    (hcovered : ∀ r, w.core.mappings.Lists r → r.Covered)
    (hprepare : w.prepare p order = (.ok task, w₁))
    (hresolve : (w₁.enrolled task).resolve p task.holds.file task.chunks =
      (.ok (extents, pins), w₂)) :
    ∃ runs, planRuns task.holds.region.layout task.start extents = .ok runs := by
  obtain ⟨-, hprepared⟩ := prepare_ok p hprepare
  obtain ⟨hranges, hps'⟩ := resolvable hprepare hps
  obtain ⟨backings, events, hall, rfl, -⟩ := resolve_ok p hranges hps' hresolve
  -- The extents are as long as the chunks.
  have hbytes := congrArg List.length
    (Chunk.bytes_extentsAll (Word.isPowerOfTwo_pos hps') hranges hall)
  rw [List.length_map, length_flatMap_bytes, Chunk.length_bytesAt hall, hprepared.chunks] at hbytes
  obtain ⟨use, hfind, hregion⟩ := hprepared.region
  have hroom : task.holds.region.mappedLength ≤ task.holds.region.layout.size :=
    (hcovered _ (hregion ▸ .registered hfind)).trans (Nat.min_le_left ..)
  rw [planRuns_isOk_iff task.holds.region.pageSize.bytes_pos, hprepared.chunks, hbytes]
  exact .inr (hprepared.inside.trans hroom)

/-- A request whose launch is cut off is answered with the reason. -/
theorem copyAsync_cutOff {order : CopyOrder} {task : Task} {extents : List Extent}
    {pins : List PinSet} {runs : List Run} {k : Nat} {run : Run} {e : Error} {w w₁ w₂ : World ε}
    (hprepare : w.prepare p order = (.ok task, w₁))
    (hresolve : (w₁.enrolled task).resolve p task.holds.file task.chunks =
      (.ok (extents, pins), w₂))
    (hplan : planRuns task.holds.region.layout task.start extents = .ok runs)
    (hrefused : ((w₂.supplied p task extents pins).attempts p task extents)[k]? =
      some ⟨run, some e, true⟩) :
    (w.copyAsync p order).1 = .error e ∧
      ((w₂.supplied p task extents pins).attempts p task extents).map Attempt.run =
        runs.take (k + 1) ∧
      ∃ flights, CutOff task.id runs k flights (w₂.supplied p task extents pins)
        (w.copyAsync p order).2 := by
  rw [attempts_of_planRuns hplan] at hrefused ⊢
  obtain ⟨hanswer, hruns, flights, hcut⟩ := tries_cutOff hrefused
  have hsubmit := submitAll_of_planRuns hplan hanswer
  rw [copyAsync_of_prepare hprepare, launch_of_resolve (find?_enrolled task w₁) hresolve, hsubmit]
  generalize (Sink.feed (fun run (w : World ε) => w.submit p task.id run) runs
    (w₂.supplied p task extents pins)).2 = fed at hcut ⊢
  have hquiet := (Quiet.log fed (.stopped task.id e)).trans (Quiet.finish p task.id _)
  have hflights := finish_flights p task.id (fed.log (.stopped task.id e))
  refine ⟨rfl, hruns, flights, hcut.submits, hquiet.transfers.trans hcut.transfers,
    (congrArg Flights.next hflights).trans hcut.next, fun f hf => hcut.inFlight f ?_⟩
  rwa [hflights] at hf

/-- The task of a request that is admitted has the next number. -/
theorem next_enrolled {order : CopyOrder} {task : Task} {w w₁ : World ε}
    (hprepare : w.prepare p order = (.ok task, w₁)) :
    task.id.id = w.core.tasks.ids.next ∧
      (w₁.enrolled task).core.tasks.ids.next = task.id.id + 1 := by
  obtain ⟨use, m, -, hcore, -, hid, -⟩ := prepare_core hprepare
  refine ⟨congrArg TaskId.id hid, ?_⟩
  rw [show (w₁.enrolled task).core.tasks.ids = w₁.core.tasks.ids from rfl, hcore, hid]
  rfl

/-- A task that is registered is given its page references. -/
theorem find?_supplied {task t : Task} {w : World ε}
    (h : w.core.tasks.table.find? task.id = some t) (extents : List Extent) (pins : List PinSet) :
    (w.supplied p task extents pins).core.tasks.table.find? task.id =
      some (t.supplied pins) := by
  unfold supplied retain
  rw [Tasks.retain?, h]
  exact (Sharded.find?_insert ..).trans (if_pos rfl)

end World

/-! ## The task afterwards -/

variable {p q : Platform ε} {stray : Prop} {m m' : Moment ε} {task : Task}

/-- Another task goes into the table, or one that holds the same. -/
theorem Sharded.holds_insert {t : Sharded TaskId Task} {id : TaskId} {v : Task}
    (hi : ∀ v, t.find? task.id = some v → v.holds = task.holds)
    (hnew : task.id = id → v.holds = task.holds) :
    ∀ v', (t.insert id v).find? task.id = some v' → v'.holds = task.holds := by
  intro v' hv
  rw [Sharded.find?_insert] at hv
  split at hv
  · next he =>
    obtain rfl := Option.some.inj hv
    exact hnew he
  · exact hi v' hv

/-- The launch of a task has got its pages, so that the task holds the same from now on. It is
registered as long as it is busy. -/
structure Moment.Settled (task : Task) (m : Moment ε) : Prop where
  bound : task.id.id < m.world.core.tasks.ids.next
  launch : ∀ i, m.hand.launch = some i → i.task = task.id → i.pages ≠ none
  holds : ∀ v, m.world.core.tasks.table.find? task.id = some v → v.holds = task.holds
  kept : m.Registered task.id ∨ m.Idle task.id

theorem Moment.Settled.ne_allocate (hi : m.Settled task) :
    task.id ≠ m.world.core.tasks.allocate.1 := fun he =>
  absurd (congrArg TaskId.id he) hi.bound.ne

theorem Move.settled_launch (h : Move p stray m m') (hi : m.Settled task) :
    ∀ i, m'.hand.launch = some i → i.task = task.id → i.pages ≠ none := by
  have hlaunch := hi.launch
  cases h with
  | enroll w k h v use new nobody nothing found same =>
    intro i hl he
    obtain rfl := Option.some.inj hl
    exact absurd (he.symm.trans new) hi.ne_allocate
  | retain w k id r pins tasks found =>
    intro i hl _
    obtain rfl := Option.some.inj hl
    nofun
  | retainGone w k id r pages none =>
    intro i hl _
    obtain rfl := Option.some.inj hl
    nofun
  | endLaunch w k l => nofun
  | abandon w k id r => nofun
  | _ => exact hlaunch

theorem Move.settled_holds (h : Move p stray m m') (hi : m.Settled task) :
    ∀ v, m'.world.core.tasks.table.find? task.id = some v → v.holds = task.holds := by
  have hholds := hi.holds
  cases h with
  | detach w k h use map cause found unused =>
    dsimp only
    rw [World.unpinRegion_core]
    exact hholds
  | resume w k s =>
    dsimp only
    rw [World.resume_core]
    exact hholds
  | install w k id rest displaced tasks found waits =>
    obtain ⟨v, hf, -, rfl⟩ := Tasks.install?_eq_some found
    exact Sharded.holds_insert hholds fun he => hholds v (he ▸ hf)
  | enroll w k h v use new nobody nothing found same =>
    exact Sharded.holds_insert hholds fun he => absurd (he.trans new) hi.ne_allocate
  | remove w k id v tasks found =>
    obtain ⟨-, rfl⟩ := Tasks.remove?_eq_some found
    intro v hv
    replace hv := (Sharded.find?_erase ..).symm.trans hv
    split at hv
    · cases hv
    · exact hholds v hv
  | retain w k id r pins tasks found =>
    obtain ⟨v, hf, rfl⟩ := Tasks.retain?_eq_some found
    exact Sharded.holds_insert hholds fun he => absurd rfl (hi.launch _ rfl he.symm)
  | endLaunch w k l => exact (Tasks.table_finish w.core.tasks l.task).symm ▸ hholds
  | land w k token f flights found =>
    exact (Tasks.table_finish w.core.tasks f.task).symm ▸ hholds
  | _ => exact hholds

/-- A task goes out of the table when its cleanup is due. By then it is idle, and stays so. -/
theorem Move.settled (h : Move p stray m m') (ho : m.Orderly) (hi : m.Settled task) :
    m'.Settled task where
  bound := Nat.lt_of_lt_of_le hi.bound h.ids_le
  launch := h.settled_launch hi
  holds := h.settled_holds hi
  kept := by
    rcases hi.kept with hr | hidle
    · by_cases hd : m.hand.due = task.id :: m'.hand.due
      · exact .inr (h.idle (ho.due _ (hd ▸ List.mem_cons_self ..))).1
      · exact .inl (h.registered hr hd)
    · exact .inr (h.idle hidle).1

/-- Submissions of a task are made by its launch. Once later tasks are launched, there are none. -/
theorem Move.none_more {flights : List Flight} (h : Move p stray m m')
    (hs : m.Since (task.id.id + 1))
    (hi : ∀ f ∈ m.world.core.flights.flights, f.task = task.id → f ∈ flights) :
    ∀ f ∈ m'.world.core.flights.flights, f.task = task.id → f ∈ flights := by
  intro f hf hid
  by_cases hold : f ∈ m.world.core.flights.flights
  · exact hi f hold hid
  · obtain ⟨r, pages, hl, -⟩ := h.new_flight hold hf
    exact absurd (hid ▸ hs.launch _ hl) (Nat.not_succ_le_self _)

/-- The tasks that have ended have each ended once. -/
theorem Tasks.Numbers.nodup_ended {t : Tasks} {ended : List TaskId} (hi : t.Numbers ended) :
    ended.Nodup := by
  have hids : t.admittedIds.Nodup :=
    List.nodup_range.map fun a b he => Nat.succ.inj (congrArg TaskId.id he)
  exact (List.nodup_append.1 (hi.once.nodup_iff.2 hids)).2.1

namespace Moment

/-- What is known of a task from the end of its launch on, if nobody else cleans tasks up. -/
structure Waits (task : Task) (flights : List Flight) (m : Moment ε) : Prop where
  launching : m.Launching (task.id.id + 1)
  orderly : m.Orderly
  settled : m.Settled task
  /-- Other submissions of the task than these are not in flight. -/
  none_more : ∀ f ∈ m.world.core.flights.flights, f.task = task.id → f ∈ flights

/-- A task waits for its submissions to end. -/
structure Awaits (task : Task) (flights : List Flight) (m : Moment ε) : Prop where
  /-- As long as one of them is in flight, the task is registered, and what it holds is there. -/
  held : ∀ f ∈ flights, f ∈ m.world.core.flights.flights → task.id ∉ m.hand.due ∧
    ∃ v use, m.world.core.tasks.table.find? task.id = some v ∧ v.holds = task.holds ∧
      m.world.core.mappings.use? task.holds.region.handle = some use ∧
      use.region = task.holds.region ∧ 0 < use.refs ∧
      task.holds.region.Intact task.pages m.world.ambient.history
  /-- Once none is, its cleanup is due or has taken place, once. -/
  gone : (∀ f ∈ flights, f ∉ m.world.core.flights.flights) →
    task.id ∈ m.hand.due ∨ ¬m.Registered task.id ∧ m.ended.count task.id = 1

theorem Waits.awaits {flights : List Flight} (hi : m.Waits task flights) (hpos : 0 < task.id.id)
    (htask : ∀ f ∈ flights, f.task = task.id) : m.Awaits task flights where
  held f hf hflight := by
    have hbusy : ¬m.Idle task.id := fun hidle => hidle.ne_task hflight (htask f hf).symm
    refine ⟨fun hd => hbusy (hi.orderly.due _ hd), ?_⟩
    obtain ⟨v, hv⟩ := Option.ne_none_iff_exists'.1 (hi.settled.kept.resolve_right hbusy)
    have hholds := hi.settled.holds v hv
    obtain ⟨use, hu, hregion, hrefs, hintact⟩ :=
      hi.launching.tallied.accounted.intact hi.launching.balanced hv
    rw [Task.pages, hholds] at hintact
    rw [hholds] at hu hregion
    exact ⟨v, use, hv, hholds, hu, hregion, hrefs, hintact⟩
  gone hnone := by
    have htallied := hi.launching.tallied
    by_cases hr : m.Registered task.id
    -- A registered task is counted, and nothing of this one is left to be counted.
    · refine .inl ?_
      by_contra hd
      obtain ⟨hexact, hcount⟩ := htallied.exact hr hd
      have hflights : m.world.core.flights.ofTask task.id = [] := by
        refine List.eq_nil_iff_forall_not_mem.2 fun f hf => ?_
        obtain ⟨hmem, hid⟩ := Flights.mem_ofTask.1 hf
        exact hnone f (hi.none_more f hmem hid) hmem
      have hlaunch : launchBias m.hand.launch task.id = 0 := by
        cases hl : m.hand.launch with
        | none => rfl
        | some l =>
          refine launchBias_of_ne fun he => ?_
          exact absurd (he ▸ hi.launching.since.launch l hl) (Nat.not_succ_le_self _)
      unfold Exact Tasks.Exact at hexact
      rw [hexact, hflights, hlaunch] at hcount
      exact Nat.lt_irrefl _ hcount
    · have hid : task.id ∈ m.world.core.tasks.admittedIds :=
        htallied.numbered.mem_iff.2 ⟨hpos, hi.settled.bound⟩
      exact .inr ⟨hr, List.count_eq_one_of_mem htallied.numbered.nodup_ended
        (htallied.ended_of_admitted hid hr)⟩

end Moment

theorem Move.waits {flights : List Flight} (h : Move p stray m m') (hs : ¬stray)
    (hi : m.Waits task flights) : m'.Waits task flights where
  launching := h.launching hi.launching
  orderly := h.orderly hs hi.launching.tallied.tracked hi.launching.tallied.metered hi.orderly
  settled := h.settled hi.orderly hi.settled
  none_more := h.none_more hi.launching.since hi.none_more

/-! ## From the refusal to the end of the task -/

/-- Nothing is left of a task: it has been cleaned up, once. The references to regions are those of
callers and of registered tasks, and the page references that have not been given back are those of
registered tasks. -/
structure System.Released (id : TaskId) (s : System ε) : Prop where
  gone : s.world.core.tasks.table.find? id = none
  once : (s.world.record Event.completes).count id = 1
  refs : ∀ h, (s.world.core.mappings.use? h).elim 0 RegionUse.refs = s.outstanding h
  pages : (↑(s.world.ambient.history.flatMap Event.obtains) : Multiset HostPage) =
    ↑(s.world.ambient.history.flatMap Event.returns) + s.world.core.tasks.pages

/-- Between calls no cleanup is due. -/
theorem Moment.Awaits.released {t : System ε} {flights : List Flight}
    (hi : t.moment.Awaits task flights) (ha : t.moment.Accounted) (hb : t.moment.Balanced)
    (hended : ∀ f ∈ flights, f ∉ t.world.core.flights.flights) : t.Released task.id := by
  obtain ⟨hgone, honce⟩ := (hi.gone hended).resolve_left List.not_mem_nil
  exact ⟨not_not.1 hgone, honce, fun _ => System.elim_refs_eq ha, hb.between⟩

namespace Reach

variable {s : System ε} {order : CopyOrder} {extents : List Extent} {pins : List PinSet}
  {w₁ w₂ : World ε}

theorem launching (h : Reach p (fun _ => True) s) : s.moment.Launching 0 :=
  ⟨h.tallied, h.conserved.balanced, nofun, Nat.zero_le _, nofun⟩

/-- The ids of later launches are later ones. -/
theorem since_copyAsync (h : Reach p (fun _ => True) s)
    (hprepare : s.world.prepare q order = (.ok task, w₁)) :
    (s.perform q (.copyAsync order)).moment.Since (task.id.id + 1) := by
  obtain ⟨hranges, hps⟩ := World.resolvable hprepare
    (h.isPowerOfTwo (.inl trivial) fun _ _ _ => trivial)
  have hlaunch : Moves q True _ ⟨((w₁.enrolled task).launch q task).2, _⟩ :=
    Moves.launch (.inl trivial) (w₁.find?_enrolled task) hranges hps { refs := ↑s.held }
  have hworld : (s.perform q (.copyAsync order)).world = ((w₁.enrolled task).launch q task).2 :=
    congrArg Prod.snd (World.copyAsync_of_prepare hprepare)
  refine ⟨?_, nofun⟩
  show _ ≤ (s.perform q (.copyAsync order)).world.core.tasks.ids.next
  rw [hworld, ← (World.next_enrolled hprepare).2]
  exact hlaunch.ids_le

/-- When a launch begins to submit, its task has its page references. -/
theorem settled_supplied (h : Reach p (fun _ => True) s) (hq : q.CleansNothing)
    (hprepare : s.world.prepare q order = (.ok task, w₁))
    (hresolve : (w₁.enrolled task).resolve q task.holds.file task.chunks =
      (.ok (extents, pins), w₂)) :
    let k : Hand :=
      { refs := ↑s.held
        launch := some ⟨task.id, task.holds.region, some (pins.flatMap PinSet.pages)⟩ }
    let m : Moment ε := ⟨w₂.supplied q task extents pins, k⟩
    m.Launching 0 ∧ m.Orderly ∧ m.Settled (task.supplied pins) := by
  intro k m
  have henroll : Moves q False s.moment _ := Moves.enroll hprepare { refs := ↑s.held }
  have hsupply : Moves q False _ m := Moves.supply (.inr hq) hresolve { refs := ↑s.held }
  obtain ⟨hlaunching, horderly⟩ := Moves.keeps (I := fun m => m.Launching 0 ∧ m.Orderly)
    (fun _ _ hm ⟨hi, ho⟩ => ⟨hm.launching hi,
      hm.orderly not_false hi.tallied.tracked hi.tallied.metered ho⟩)
    (henroll.trans hsupply) ⟨h.launching, nofun, nofun⟩
  have hreads := World.Reads.resolve hq task.holds.file task.chunks (w₁.enrolled task)
  rw [hresolve] at hreads
  have hfind : w₂.core.tasks.table.find? task.id = some task := by
    rw [hreads.core]
    exact w₁.find?_enrolled task
  have hsupplied := World.find?_supplied (p := q) hfind extents pins
  refine ⟨hlaunching, horderly, ?_, ?_, fun v hv => ?_, .inl (hsupplied.trans_ne nofun)⟩
  · exact (World.next_enrolled hprepare).2.symm.le.trans hsupply.ids_le
  · intro i hl _
    obtain rfl := Option.some.inj hl
    nofun
  · obtain rfl := Option.some.inj (hsupplied.symm.trans hv)
    rfl

/-- After a request whose sources have been resolved, its task waits for its submissions. -/
theorem waits_copyAsync {flights : List Flight} (h : Reach p (fun _ => True) s)
    (hq : q.CleansNothing) (hprepare : s.world.prepare q order = (.ok task, w₁))
    (hresolve : (w₁.enrolled task).resolve q task.holds.file task.chunks =
      (.ok (extents, pins), w₂))
    (hflights : ∀ f ∈ (s.perform q (.copyAsync order)).world.core.flights.flights,
      f.task = task.id → f ∈ flights) :
    (s.perform q (.copyAsync order)).moment.Waits (task.supplied pins) flights := by
  obtain ⟨hranges, hps⟩ := World.resolvable hprepare
    (h.isPowerOfTwo (.inl trivial) fun _ _ _ => trivial)
  have hspend : Moves q False _ _ := Moves.spend (.inr hq) hranges hps hresolve { refs := ↑s.held }
  have hworld : (s.perform q (.copyAsync order)).world =
      ((w₂.supplied q task extents pins).submitAll q task task.holds.region extents).2.finish q
        task.id := by
    show (s.world.copyAsync q order).2 = _
    rw [World.copyAsync_of_prepare hprepare, World.launch_of_resolve (w₁.find?_enrolled task) hresolve]
  have hsupplied := h.settled_supplied hq hprepare hresolve
  -- The submissions of the launch and its end are moves like any others.
  obtain ⟨hlaunching, horderly, hsettled⟩ := Moves.keeps
    (I := fun m => m.Launching 0 ∧ m.Orderly ∧
      m.Settled (task.supplied pins))
    (fun _ _ hm ⟨hi, ho, hs⟩ => ⟨hm.launching hi,
      hm.orderly not_false hi.tallied.tracked hi.tallied.metered ho, hm.settled ho hs⟩)
    hspend hsupplied
  rw [← hworld] at hlaunching horderly hsettled
  have hsince := h.since_copyAsync hprepare
  exact ⟨{ hlaunching with since := hsince }, horderly, hsettled, hflights⟩

/-- **Refusals leave a clean prefix.** After any run, take a request that is admitted and whose
sources are resolved. Let attempt `k` of its launch be refused by a channel that drops the token.

* The channels have taken the first `k` runs of the plan, in order, and nothing else. The refused
  attempt was the last one: no more submissions of the task are made, whatever happens later.
* The request is answered with the reason of the channel.
* If nobody else cleans tasks up, the task is registered, with all that it holds, as long as one of
  the `k` submissions is in flight. As soon as none is, which may be so at once, it is cleaned up,
  once, and what it held is given back. -/
theorem refusals_drain {k : Nat} {run : Run} {e : Error} (h : Reach p (fun _ => True) s)
    (hprepare : s.world.prepare q order = (.ok task, w₁))
    (hresolve : (w₁.enrolled task).resolve q task.holds.file task.chunks =
      (.ok (extents, pins), w₂))
    (hrefused : ((w₂.supplied q task extents pins).attempts q task extents)[k]? =
      some ⟨run, some e, true⟩) :
    let s' := s.perform q (.copyAsync order)
    ∃ runs flights,
      planRuns task.holds.region.layout task.start extents = .ok runs ∧
      Submits task.id (runs.take k) flights ∧
      s'.world.transfers = w₂.transfers ++ flights.map .submitted ∧
      ((w₂.supplied q task extents pins).attempts q task extents).map Attempt.run =
        runs.take (k + 1) ∧
      s'.world.core.flights.next = s.world.core.flights.next + (k + 1) ∧
      (∀ m, Moves q True s'.moment m →
        ∀ f ∈ m.world.core.flights.flights, f.task = task.id → f ∈ flights) ∧
      s.world.copyAsync q order = (.error e, s'.world) ∧
      s.world.copy q order = (.returned (.error e), s'.world) ∧
      (q.CleansNothing →
        (∀ m, Moves q False s'.moment m → m.Awaits (task.supplied pins) flights) ∧
        ∀ t : System ε, Moves q False s'.moment t.moment →
          (∀ f ∈ flights, f ∉ t.world.core.flights.flights) → t.Released task.id) := by
  intro s'
  have hps : Word.isPowerOfTwo s.world.core.config.hostPageSize :=
    h.isPowerOfTwo (.inl trivial) fun _ _ _ => trivial
  obtain ⟨runs, hplan⟩ := World.planRuns_of_resolve hps h.covered hprepare hresolve
  obtain ⟨hanswer, hruns, flights, hcut⟩ := World.copyAsync_cutOff hprepare hresolve hplan hrefused
  have hbefore := World.flights_supplied hprepare hresolve
  have hnext := (World.next_enrolled hprepare).1
  -- No submission from before the request is one of its task.
  have hflights : ∀ f ∈ s'.world.core.flights.flights, f.task = task.id → f ∈ flights := by
    intro f hf hid
    refine (hcut.inFlight f hf).resolve_left fun hold => ?_
    rw [hbefore] at hold
    have hlt := h.tallied.metered.known.flights f hold
    rw [hid, hnext] at hlt
    exact Nat.lt_irrefl _ hlt
  have hsince : s'.moment.Since (task.id.id + 1) := h.since_copyAsync hprepare
  have hcopyAsync : s.world.copyAsync q order = (.error e, s'.world) := Prod.ext hanswer rfl
  refine ⟨runs, flights, hplan, hcut.submits, ?_, hruns, hcut.next.trans (by rw [hbefore]), ?_,
    hcopyAsync, by rw [World.copy, hcopyAsync], fun hq => ?_⟩
  · have hquiet := (World.Quiet.retain q task.id pins w₂).trans
      (.log _ (.resolved task.id extents.length task.length))
    exact hcut.transfers.trans (congrArg (· ++ _) hquiet.transfers)
  · intro m hm
    exact (Moves.keeps (I := fun m => m.Since (task.id.id + 1) ∧
      ∀ f ∈ m.world.core.flights.flights, f.task = task.id → f ∈ flights)
      (fun _ _ hm ⟨hs, hi⟩ => ⟨hm.since hs, hm.none_more hs hi⟩)
      hm ⟨hsince, hflights⟩).2
  · have hwaits (m : Moment ε) (hm : Moves q False s'.moment m) :
        m.Waits (task.supplied pins) flights :=
      Moves.keeps (fun _ _ hm hi => hm.waits not_false hi) hm
        (h.waits_copyAsync hq hprepare hresolve hflights)
    have hpos : 0 < task.id.id := by
      have hcount : s.world.core.tasks.ids.next = _ := h.tallied.numbered.next
      rw [hnext, hcount]
      exact Nat.succ_pos _
    have hawaits (m : Moment ε) (hm : Moves q False s'.moment m) :
        m.Awaits (task.supplied pins) flights := by
      refine (hwaits m hm).awaits hpos fun f hf => ?_
      obtain ⟨r, -, hid, -⟩ := hcut.submits.mem hf
      exact hid
    refine ⟨hawaits, fun t ht hended => ?_⟩
    have hlaunching := (hwaits t.moment ht).launching
    exact (hawaits t.moment ht).released hlaunching.tallied.accounted hlaunching.balanced hended

end Reach

/-- A bench with one region, whose first channel refuses its second submission. -/
def Bench.refusing : System Bench :=
  (System.mk (.fresh {} {} { memory := { ending := .manual, refuseAt := some 1 } }) []).perform
    hookless (.map ⟨1⟩ ⟨0x10000⟩ 0x10000)

/-- The second of three runs is refused while the first is in flight. -/
theorem Reach.refusals_drain_second :
    let order : CopyOrder :=
      ⟨⟨1⟩, none, 0, [.host 0x5000 0x1000, .host 0x9000 0x1000, .host 0xd000 0x1000]⟩
    let s' := Bench.refusing.perform Bench.hookless (.copyAsync order)
    let run : Run := ⟨.memory, 0x800000009000, ⟨0x4000001000⟩, 0x1000, 0x1000⟩
    let f : Flight := ⟨⟨0⟩, ⟨1⟩, .memory, ⟨0x800000005000, ⟨0x4000000000⟩, 0x1000⟩⟩
    Bench.hookless.CleansNothing ∧ Reach Bench.hookless (fun _ => True) Bench.refusing ∧
      ∃ task extents pins w₁ w₂,
        Bench.refusing.world.prepare Bench.hookless order = (.ok task, w₁) ∧
        (w₁.enrolled task).resolve Bench.hookless task.holds.file task.chunks =
          (.ok (extents, pins), w₂) ∧
        ((w₂.supplied Bench.hookless task extents pins).attempts Bench.hookless task extents)[1]? =
          some ⟨run, some (.driverError (-5)), true⟩ ∧
        s'.world.core.flights.flights = [f] ∧ s'.moment.Registered task.id ∧
        (s'.perform Bench.hookless (.land f.token)).Released task.id := by
  intro order s' run f
  have h : Reach Bench.hookless (fun _ => True) Bench.refusing :=
    .call (@start _ _ _ {} {} { memory := { ending := .manual, refuseAt := some 1 } } _ rfl) _ trivial
  have hlast : (match Bench.refusing.world.prepare Bench.hookless order with
      | (.ok task, w₁) =>
        match (w₁.enrolled task).resolve Bench.hookless task.holds.file task.chunks with
        | (.ok (extents, pins), w₂) => some (task.id,
          ((w₂.supplied Bench.hookless task extents pins).attempts Bench.hookless task extents)[1]?)
        | _ => none
      | _ => none) = some (⟨1⟩, some ⟨run, some (.driverError (-5)), true⟩) := by decide +kernel
  rcases hprepare : Bench.refusing.world.prepare Bench.hookless order with ⟨e | task, w₁⟩ <;>
    rw [hprepare] at hlast
  · cases hlast
  dsimp only at hlast
  rcases hresolve : (w₁.enrolled task).resolve Bench.hookless task.holds.file task.chunks with
    ⟨e | ⟨extents, pins⟩, w₂⟩ <;> rw [hresolve] at hlast
  · cases hlast
  obtain ⟨hid, hrefused⟩ := Prod.mk.inj (Option.some.inj hlast)
  have hflights : s'.world.core.flights.flights = [f] := by decide +kernel
  have hnone : (s'.perform Bench.hookless (.land f.token)).world.core.flights.flights = [] := by
    decide +kernel
  have hland : Moves Bench.hookless False s'.moment
      (s'.perform Bench.hookless (.land f.token)).moment :=
    System.perform_moves (.inr Bench.cleansNothing_hookless) nofun
      ((h.call (.copyAsync order) trivial).isPowerOfTwo (.inl trivial) fun _ _ _ => trivial)
  obtain ⟨runs, flights, -, -, -, -, -, hmore, -, -, hdrains⟩ :=
    refusals_drain h hprepare hresolve hrefused
  obtain ⟨hawaits, hreleased⟩ := hdrains Bench.cleansNothing_hookless
  have hmem : f ∈ s'.moment.world.core.flights.flights := by
    rw [System.moment, hflights]
    exact List.mem_singleton_self f
  have htaken : f ∈ flights := hmore s'.moment .refl f hmem hid.symm
  obtain ⟨-, v, use, hv, -⟩ := (hawaits s'.moment .refl).held f htaken hmem
  have hended : ∀ f' ∈ flights,
      f' ∉ (s'.perform Bench.hookless (.land f.token)).world.core.flights.flights := by
    rw [hnone]
    exact fun f' _ => List.not_mem_nil
  exact ⟨Bench.cleansNothing_hookless, h, task, extents, pins, w₁, w₂, rfl, hresolve, hrefused,
    hflights, hv.trans_ne nofun, hreleased _ hland hended⟩

end PeerDma
