import PeerDma.Proofs.Outstanding

/-!
# What launches rest on

A launch looks once at what its task holds, when it begins, and goes on with that until its last
submission has been handed to a channel. As long as the task is registered, it holds that memory.
But the surroundings can clean the task up while they pin host pages or take a submission. The
launch does not look again: it goes on, and submits for memory that has been given back.

* `Moment.Fits`: a launch has what its task holds, if the task is registered.
* `Moment.Since`: a launch is that of a task that has been admitted since.
* `Moment.Orderly`: a launch is that of a registered task, if nobody else cleans tasks up.
* `Reach.submissions_held`: what a submission rests on when it is handed to its channel.
-/

namespace PeerDma

variable {ε : Type} {p : Platform ε} {stray : Prop} {m m' : Moment ε} {f : Flight}

/-! ## What a launch has -/

namespace Tasks

/-- What a launch has is what its task holds, if the task is registered. -/
def Fits (t : Tasks) (l : Option LaunchInHand) : Prop :=
  ∀ i, l = some i → ∀ task, t.table.find? i.task = some task →
    task.holds.region = i.region ∧ ∀ pages, i.pages = some pages → pages ⊆ task.pages

namespace Fits

variable {t t' : Tasks} {l : Option LaunchInHand} {id : TaskId} {task task' : Task}

theorem congr (hi : t.Fits l) (htable : t'.table = t.table) : t'.Fits l := by
  unfold Fits
  rw [htable]
  exact hi

theorem enroll :
    (t.allocate.2.register task).Fits (some { task := task.id, region := task.holds.region }) := by
  intro i hl v hv
  obtain rfl := Option.some.inj hl
  have hfind : (t.allocate.2.register task).table.find? task.id = some task :=
    (Sharded.find?_insert ..).trans (if_pos rfl)
  obtain rfl := Option.some.inj (hfind.symm.trans hv)
  exact ⟨rfl, nofun⟩

/-- One task changes, but not what it holds. -/
theorem insert (hi : t.Fits l) (hf : t.table.find? id = some task)
    (hholds : task'.holds = task.holds) :
    ({ t with table := t.table.insert id task' } : Tasks).Fits l := by
  intro i hl v hv
  replace hv := (Sharded.find?_insert ..).symm.trans hv
  split at hv
  · next he =>
    obtain rfl := Option.some.inj hv
    rw [hholds, Task.pages, hholds]
    exact hi i hl task (he ▸ hf)
  · exact hi i hl v hv

theorem remove (hi : t.Fits l) (hr : t.remove? id = some (task, t')) : t'.Fits l := by
  obtain ⟨-, rfl⟩ := remove?_eq_some hr
  intro i hl v hv
  replace hv := (Sharded.find?_erase ..).symm.trans hv
  split at hv
  · cases hv
  · exact hi i hl v hv

/-- The launch gets its pages, and the task gets them too. -/
theorem retain {r : Region} {pins : List PinSet} (hi : t.Fits (some { task := id, region := r }))
    (hr : t.retain? id pins = some t') :
    t'.Fits (some ⟨id, r, some (pins.flatMap PinSet.pages)⟩) := by
  obtain ⟨task, hf, rfl⟩ := retain?_eq_some hr
  intro i hl v hv
  obtain rfl := Option.some.inj hl
  obtain rfl := Option.some.inj (((Sharded.find?_insert ..).trans (if_pos rfl)).symm.trans hv)
  refine ⟨(hi _ rfl task hf).1, fun pages he => ?_⟩
  obtain rfl := Option.some.inj he
  rw [Task.pages, List.flatMap_append]
  exact List.subset_append_right ..

theorem retainGone {r : Region} {pages : Option (List HostPage)}
    (hnone : t.table.find? id = none) : t.Fits (some ⟨id, r, pages⟩) := by
  intro i hl v hv
  obtain rfl := Option.some.inj hl
  cases hnone.symm.trans hv

end Fits

end Tasks

namespace Moment

/-- The launch has what its task holds, if the task is registered. -/
def Fits (m : Moment ε) : Prop := m.world.core.tasks.Fits m.hand.launch

/-- The launch is that of a task that has been admitted since a number was the next one. -/
structure Since (first : Nat) (m : Moment ε) : Prop where
  next : first ≤ m.world.core.tasks.ids.next
  launch : ∀ i, m.hand.launch = some i → first ≤ i.task.id

/-- What is due to be cleaned up is idle, and the task of the launch is registered. -/
structure Orderly (m : Moment ε) : Prop where
  due : ∀ id ∈ m.hand.due, m.Idle id
  launch : ∀ i, m.hand.launch = some i → m.Registered i.task

end Moment

theorem Move.fits (h : Move p stray m m') (hi : m.Fits) : m'.Fits := by
  unfold Moment.Fits at hi ⊢
  cases h with
  | detach w k h use map cause found unused =>
    dsimp only
    rw [World.unpinRegion_core]
    exact hi
  | resume w k s =>
    dsimp only
    rw [World.resume_core]
    exact hi
  | install w k id rest displaced tasks found waits =>
    obtain ⟨task, hf, -, rfl⟩ := Tasks.install?_eq_some found
    exact Tasks.Fits.insert hi hf rfl
  | enroll w k h task use new nobody nothing found same => exact Tasks.Fits.enroll
  | remove w k id task tasks found => exact Tasks.Fits.remove hi found
  | retain w k id r pins tasks found => exact Tasks.Fits.retain hi found
  | retainGone w k id r pages none => exact Tasks.Fits.retainGone none
  | endLaunch w k l => exact nofun
  | abandon w k id r => exact nofun
  | land w k token f flights found => exact Tasks.Fits.congr hi (Tasks.table_finish ..)
  | _ => exact hi

/-- Task ids are given out in order. -/
theorem Move.ids_le (h : Move p stray m m') :
    m.world.core.tasks.ids.next ≤ m'.world.core.tasks.ids.next := by
  cases h with
  | detach w k h use map cause found unused =>
    dsimp only
    rw [World.unpinRegion_core]
    exact Nat.le_refl _
  | resume w k s =>
    dsimp only
    rw [World.resume_core]
  | install w k id rest displaced tasks found waits =>
    obtain ⟨task, -, -, rfl⟩ := Tasks.install?_eq_some found
    exact Nat.le_refl _
  | enroll w k h task use new nobody nothing found same => exact Nat.le_succ _
  | remove w k id task tasks found =>
    obtain ⟨-, rfl⟩ := Tasks.remove?_eq_some found
    exact Nat.le_refl _
  | retain w k id r pins tasks found =>
    obtain ⟨task, -, rfl⟩ := Tasks.retain?_eq_some found
    exact Nat.le_refl _
  | endLaunch w k l => exact Nat.le_of_eq (congrArg Allocator.next (Tasks.ids_finish ..).symm)
  | land w k token f flights found =>
    exact Nat.le_of_eq (congrArg Allocator.next (Tasks.ids_finish ..).symm)
  | _ => exact Nat.le_refl _

theorem Moves.ids_le (h : Moves p stray m m') :
    m.world.core.tasks.ids.next ≤ m'.world.core.tasks.ids.next :=
  Moves.keeps (I := fun m' => m.world.core.tasks.ids.next ≤ m'.world.core.tasks.ids.next)
    (fun _ _ hm hi => hi.trans hm.ids_le) h (Nat.le_refl _)

/-- A launch goes on, or is that of a task that has just been registered. -/
theorem Move.launch_cases (h : Move p stray m m') {i : LaunchInHand}
    (hl : m'.hand.launch = some i) :
    (∃ i', m.hand.launch = some i' ∧ i'.task = i.task) ∨
      i.task = m.world.core.tasks.allocate.1 ∧ m'.Registered i.task := by
  cases h with
  | enroll w k h task use new nobody nothing found same =>
    obtain rfl := Option.some.inj hl
    have hfind : (w.core.tasks.allocate.2.register task).table.find? task.id = some task :=
      (Sharded.find?_insert ..).trans (if_pos rfl)
    exact .inr ⟨new, hfind.trans_ne nofun⟩
  | retain w k id r pins tasks found =>
    obtain rfl := Option.some.inj hl
    exact .inl ⟨_, rfl, rfl⟩
  | retainGone w k id r pages none =>
    obtain rfl := Option.some.inj hl
    exact .inl ⟨_, rfl, rfl⟩
  | endLaunch w k l => cases hl
  | abandon w k id r => cases hl
  | offer w k id r pages run inside backed =>
    obtain rfl := Option.some.inj hl
    exact .inl ⟨_, rfl, rfl⟩
  | _ => exact .inl ⟨i, hl, rfl⟩

theorem Move.since {first : Nat} (h : Move p stray m m') (hi : m.Since first) : m'.Since first where
  next := hi.next.trans h.ids_le
  launch i hl := by
    rcases h.launch_cases hl with ⟨i', hl', he⟩ | ⟨he, -⟩
    · exact he ▸ hi.launch i' hl'
    · exact hi.next.trans_eq (congrArg TaskId.id he.symm)

/-- What is in flight or launched has been admitted. -/
theorem Moment.Known.lt_of_busy (hk : m.Known) {id : TaskId} (h : m.Busy id) :
    id.id < m.world.core.tasks.ids.next := by
  rcases h with ⟨f, hf, rfl⟩ | ⟨i, hl, rfl⟩
  · exact hk.flights f hf
  · exact (hk.launch i hl).1

/-- If nobody else cleans tasks up, a launch does not lose its task: what falls due has ended, and a
task does not end while it is launched. -/
theorem Move.orderly (h : Move p stray m m') (hs : ¬stray) (ht : m.Tracked) (hm : m.Metered)
    (hi : m.Orderly) : m'.Orderly where
  due id hd := by
    rcases h.ends_of_due hs hd with hd | hends
    · exact (h.idle (hi.due id hd)).1
    have hlt : id.id < m'.world.core.tasks.ids.next :=
      Nat.lt_of_lt_of_le (hm.known.lt_of_busy (h.ends hends).1) h.ids_le
    rcases hends with habandons | ⟨-, hzero⟩
    · rcases hm.counts id with he | hg
      · exact (habandons.givenUp hm.known he).idle
      · exact (h.idle hg.idle).1
    · exact (h.metered ht hm).idle hlt hzero
  launch i hl := by
    rcases h.launch_cases hl with ⟨i', hl', he⟩ | ⟨-, hr⟩
    · rw [← he]
      refine h.registered (hi.launch i' hl') fun hdue => ?_
      have hidle := (hi.due i'.task (hdue ▸ List.mem_cons_self ..)).launch
      rw [hl', launchBias_self] at hidle
      cases hidle
    · exact hr

/-! ## New submissions -/

/-- A new submission is one of the launch at work, to its region and from its pages. -/
theorem Move.new_flight (h : Move p stray m m') (hold : f ∉ m.world.core.flights.flights)
    (hnew : f ∈ m'.world.core.flights.flights) :
    ∃ r pages, m.hand.launch = some ⟨f.task, r, some pages⟩ ∧ f.request.InPage r ∧
      f.extent.ReadsFrom m.world.core.config.hostPageSize pages := by
  cases h with
  | detach w k h use map cause found unused =>
    dsimp only at hnew
    rw [World.unpinRegion_core] at hnew
    exact absurd hnew hold
  | resume w k s =>
    dsimp only at hnew
    rw [World.resume_core] at hnew
    exact absurd hnew hold
  | offer w k id r pages run inside backed =>
    rcases List.mem_cons.1 hnew with rfl | hmem
    · exact ⟨r, pages, rfl, inside, backed⟩
    · exact absurd hmem hold
  | land w k token g flights found =>
    obtain ⟨-, -, rfl⟩ := Flights.land?_eq_some found
    exact absurd (List.mem_of_mem_filter hnew) hold
  | _ => exact absurd hnew hold

/-! ## At every moment -/

namespace Moment

/-- The task of a submission is registered, has a reference to the region that the submission
writes to, which is pinned, and references to the pages that it reads from. -/
def Holds (m : Moment ε) (f : Flight) : Prop :=
  ∃ task use, m.world.core.tasks.table.find? f.task = some task ∧
    m.world.core.mappings.use? task.holds.region.handle = some use ∧
    use.region = task.holds.region ∧ 0 < use.refs ∧
    f.request.InPage task.holds.region ∧
    f.extent.ReadsFrom m.world.core.config.hostPageSize task.pages ∧
    task.holds.region.Intact task.pages m.world.ambient.history

/-- What launches rest on, for those that began since a task id was the next one. -/
structure Launching (first : Nat) (m : Moment ε) : Prop where
  tallied : m.Tallied
  balanced : m.Balanced
  fits : m.Fits
  since : m.Since first

end Moment

theorem Move.launching {first : Nat} (h : Move p stray m m') (hi : m.Launching first) :
    m'.Launching first where
  tallied := h.tallied hi.tallied
  balanced := h.balanced hi.tallied.accounted.counted hi.balanced
  fits := h.fits hi.fits
  since := h.since hi.since

/-- **What submissions rest on.** Take any run, in which tasks may be cleaned up by hand, and any
step of the next call by which a submission is handed to its channel.

* The submission is one of the launch at work, of a task that has been admitted in this call.
* Either the task is registered, and holds the region that the submission writes to and the pages
  that it reads from, or the surroundings have cleaned it up in this call, in the middle of its
  launch. -/
theorem Reach.submissions_held {s : System ε} (h : Reach p (fun _ => True) s)
    (hm : Moves p stray s.moment m) (hstep : Move p stray m m')
    (hold : f ∉ m.world.core.flights.flights) (hnew : f ∈ m'.world.core.flights.flights) :
    (∃ r pages, m.hand.launch = some ⟨f.task, r, some pages⟩ ∧ f.request.InPage r ∧
      f.extent.ReadsFrom m.world.core.config.hostPageSize pages) ∧
    s.world.core.tasks.ids.next ≤ f.task.id ∧
    (m.Holds f ∨ stray ∧ f.task ∈ m.ended) := by
  have hfresh (placement : Placement) (config : Config) (x : ε) :
      Moment.Launching 0 ⟨.fresh placement config x, {}⟩ :=
    ⟨Moment.tallied_fresh placement config x, (Moment.steady_fresh placement config x).balanced,
      nofun, Nat.zero_le _, nofun⟩
  have hbefore : s.moment.Launching 0 :=
    h.invariant (.inl trivial) (fun _ _ _ => trivial) hfresh fun _ _ hm hi => hm.launching hi
  have hmove (m m' : Moment ε) (hm : Move p stray m m') :
      m.Launching s.world.core.tasks.ids.next ∧ (¬stray → m.Orderly) →
        m'.Launching s.world.core.tasks.ids.next ∧ (¬stray → m'.Orderly) := fun ⟨hi, horderly⟩ =>
    ⟨hm.launching hi, fun hn =>
      hm.orderly hn hi.tallied.tracked hi.tallied.metered (horderly hn)⟩
  obtain ⟨hi, horderly⟩ := Moves.keeps hmove hm
    ⟨{ hbefore with since := ⟨Nat.le_refl _, nofun⟩ }, fun _ => ⟨nofun, nofun⟩⟩
  obtain ⟨r, pages, hl, hin, hreads⟩ := hstep.new_flight hold hnew
  have hfirst : s.world.core.tasks.ids.next ≤ f.task.id := hi.since.launch _ hl
  refine ⟨⟨r, pages, hl, hin, hreads⟩, hfirst, ?_⟩
  by_cases hr : m.Registered f.task
  · obtain ⟨task, ht⟩ := Option.ne_none_iff_exists'.1 hr
    obtain ⟨hregion, hpages⟩ := hi.fits _ hl task ht
    obtain ⟨use, hu, hsame, hpos, hintact⟩ := hi.tallied.accounted.intact hi.balanced ht
    exact .inl ⟨task, use, ht, hu, hsame, hpos, hregion ▸ hin, hreads.mono (hpages pages rfl),
      hintact⟩
  · have hnext : s.world.core.tasks.ids.next = s.world.core.tasks.stats.admitted + 1 :=
      hbefore.tallied.numbered.next
    have hid : f.task ∈ m.world.core.tasks.admittedIds :=
      hi.tallied.numbered.mem_iff.2 ⟨by omega, (hi.tallied.metered.known.launch _ hl).1⟩
    refine .inr ⟨?_, hi.tallied.ended_of_admitted hid hr⟩
    by_contra hn
    exact hr ((horderly hn).launch _ hl)

/-- What is so after some moves and was not so before has come about by one of them. -/
theorem Moves.exists_step {P : Moment ε → Prop} (h : Moves p stray m m') (hm : ¬P m) (hm' : P m') :
    ∃ m₁ m₂, Moves p stray m m₁ ∧ Move p stray m₁ m₂ ∧ ¬P m₁ ∧ P m₂ := by
  induction h with
  | refl => exact absurd hm' hm
  | @tail m₁ m₂ hmoves hmove ih =>
    by_cases hp : P m₁
    · exact ih hp
    · exact ⟨m₁, m₂, hmoves, hmove, hp, hm'⟩

/-- After a task has been cleaned up by hand, the submission of another one finds what it copies. -/
theorem Reach.submissions_held_hookless :
    let s := Bench.copying.perform Bench.hookless (.cleanup ⟨1⟩)
    let f : Flight := ⟨⟨1⟩, ⟨2⟩, .memory, ⟨0x800000005000, ⟨0x4000000000⟩, 0x1000⟩⟩
    Bench.hookless.CleansNothing ∧ Reach Bench.hookless (fun _ => True) s ∧
      ∃ m m', Moves Bench.hookless False s.moment m ∧ Move Bench.hookless False m m' ∧
        f ∉ m.world.core.flights.flights ∧ f ∈ m'.world.core.flights.flights ∧ m.Holds f := by
  intro s f
  have h : Reach Bench.hookless (fun _ => True) s :=
    .call (Bench.reach_copying.mono fun _ _ => trivial) _ trivial
  have hmoves : Moves Bench.hookless False s.moment
      (s.perform Bench.hookless (.copyAsync ⟨⟨1⟩, none, 0, [.host 0x5000 0x1000]⟩)).moment :=
    System.perform_moves (.inr Bench.cleansNothing_hookless) nofun
      (h.isPowerOfTwo (.inr Bench.cleansNothing_hookless) fun _ _ _ => trivial)
  obtain ⟨m, m', hm, hstep, hold, hnew⟩ :=
    hmoves.exists_step (P := fun m => f ∈ m.world.core.flights.flights) (by decide +kernel)
      (by decide +kernel)
  obtain ⟨-, -, hheld⟩ := submissions_held h hm hstep hold hnew
  exact ⟨Bench.cleansNothing_hookless, h, m, m', hm, hstep, hold, hnew,
    hheld.resolve_right fun hstray => hstray.1⟩

/-- A task that is cleaned up while its host pages are pinned is submitted all the same, with the
region and the pages given back. -/
theorem Reach.submissions_held_hooked :
    let s := ((System.mk (.fresh {} {}
      { memory := { ending := .manual }, hooks := [⟨.host, 0, ⟨1⟩⟩] }) []).perform
        Bench.platform (.map ⟨1⟩ ⟨0x10000⟩ 0x10000)).perform
          Bench.platform (.copyAsync ⟨⟨1⟩, none, 0, [.host 0x5000 0x1000]⟩)
    let f : Flight := ⟨⟨0⟩, ⟨1⟩, .memory, ⟨0x800000005000, ⟨0x4000000000⟩, 0x1000⟩⟩
    Reach Bench.platform (fun _ => True) s ∧
      (∃ newer older, s.world.ambient.history = newer ++ .submitted f :: older ∧
        .logged (.completed f.task) ∈ older ∧ .released [⟨⟨0x800000005000⟩⟩] ∈ older) ∧
      f ∈ s.world.core.flights.flights ∧ s.outstanding ⟨1⟩ = 0 := by
  intro s f
  let older := (s.world.ambient.history.dropWhile (· ≠ .submitted f)).tail
  have h : Reach Bench.platform (fun _ => True) s :=
    .call (.call (@start _ _ _ {} {}
      { memory := { ending := .manual }, hooks := [⟨.host, 0, ⟨1⟩⟩] } _ rfl) _ trivial) _ trivial
  exact ⟨h, ⟨s.world.ambient.history.takeWhile (· ≠ .submitted f), older, by decide +kernel,
    by decide +kernel, by decide +kernel⟩, by decide +kernel, by decide +kernel⟩

end PeerDma
