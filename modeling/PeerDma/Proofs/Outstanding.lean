import Mathlib.Data.List.Range
import PeerDma.Proofs.InFlight
import PeerDma.Proofs.Traces

/-!
# The life of a task

The count of a task is the number of its submissions in flight, plus one while it is launched. The
cleanup of a task falls due when the count drops to zero, or when its launch is given up because its
sources cannot be resolved; then nothing is in flight, and the count stays at one for good.

* `Tasks.Exact`, `Tasks.GivenUp`: how much the count of a task is. `Move.exact`, `Move.givenUp`:
  what a move does to it.
* `Moment.Numbered`: every task that has been admitted is registered or has been cleaned up, once.
* `Moment.Timely`: tasks are cleaned up when they are due, if nobody else cleans them up.
* `Trace.tasks_accounted`: counts, cleanups and requests of a run.
-/

namespace PeerDma

variable {ε : Type} {p : Platform ε} {stray : Prop} {m m' : Moment ε} {id : TaskId}

/-! ## Counts -/

namespace Tasks

/-- The count of a task is that of its submissions in flight, plus one while it is launched. -/
def Exact (t : Tasks) (fs : Flights) (l : Option LaunchInHand) (id : TaskId) : Prop :=
  t.outstandingOf id = (fs.ofTask id).length + launchBias l id

/-- Nothing of a task that has been admitted is in flight, and its launch is over. -/
structure Idle (t : Tasks) (fs : Flights) (l : Option LaunchInHand) (id : TaskId) : Prop where
  bound : id.id < t.ids.next
  flights : fs.ofTask id = []
  launch : launchBias l id = 0

/-- A task is gone, or about to go. -/
def Ending (t : Tasks) (due : List TaskId) (id : TaskId) : Prop :=
  id ∈ due ∨ t.table.find? id = none

/-- The launch of a task is over and has not been taken off its count. -/
structure GivenUp (t : Tasks) (fs : Flights) (due : List TaskId) (l : Option LaunchInHand)
    (id : TaskId) : Prop where
  idle : t.Idle fs l id
  count : t.outstandingOf id = 1
  ending : t.Ending due id

/-- Submissions and launches are those of tasks that have been admitted. A launch whose sources are
not resolved has submitted nothing. -/
structure Knows (t : Tasks) (fs : Flights) (l : Option LaunchInHand) : Prop where
  flights : ∀ f ∈ fs.flights, f.task.id < t.ids.next
  launch : ∀ i, l = some i → i.task.id < t.ids.next ∧ (i.pages = none → fs.ofTask i.task = [])

theorem launchBias_eq_zero_iff {i : LaunchInHand} : launchBias (some i) id = 0 ↔ i.task ≠ id := by
  simp [launchBias]

variable {t t' : Tasks} {fs fs' : Flights} {due due' : List TaskId} {l : Option LaunchInHand}
  {i : LaunchInHand} {task : Task} {f : Flight} {token : Token}

/-! ### What operations keep -/

namespace Knows

theorem ofTask_eq_nil (hk : t.Knows fs l) (h : t.ids.next ≤ id.id) : fs.ofTask id = [] := by
  refine List.eq_nil_iff_forall_not_mem.2 fun f hf => ?_
  obtain ⟨hmem, rfl⟩ := Flights.mem_ofTask.1 hf
  exact absurd (hk.flights f hmem) (Nat.not_lt.2 h)

theorem enroll (hk : t.Knows fs none) (hnew : task.id = t.allocate.1) :
    (t.allocate.2.register task).Knows fs
      (some { task := task.id, region := task.holds.region }) := by
  have hid : task.id.id = t.ids.next := by rw [hnew]; rfl
  refine ⟨fun f hf => Nat.lt_succ_of_lt (hk.flights f hf), fun i hl => ?_⟩
  obtain rfl := Option.some.inj hl
  exact ⟨Nat.lt_succ_of_le (Nat.le_of_eq hid), fun _ => hk.ofTask_eq_nil (Nat.le_of_eq hid.symm)⟩

/-- The sources of the launch are resolved. -/
theorem resolved {r : Region} {pages : List HostPage}
    (hk : t.Knows fs (some { task := id, region := r })) (hids : t'.ids = t.ids) :
    t'.Knows fs (some ⟨id, r, some pages⟩) := by
  refine ⟨hids ▸ hk.flights, fun i hl => ?_⟩
  obtain rfl := Option.some.inj hl
  exact ⟨hids ▸ (hk.launch _ rfl).1, nofun⟩

theorem endLaunch (hk : t.Knows fs (some i)) (hids : t'.ids = t.ids) : t'.Knows fs none :=
  ⟨hids ▸ hk.flights, nofun⟩

theorem offer {r : Region} {pages : List HostPage}
    (hk : t.Knows fs (some ⟨f.task, r, some pages⟩)) (next : Nat) :
    (t.begin f.task).Knows ⟨next, f :: fs.flights⟩ (some ⟨f.task, r, some pages⟩) := by
  obtain ⟨hlt, -⟩ := hk.launch _ rfl
  refine ⟨List.forall_mem_cons.2 ⟨hlt, hk.flights⟩, fun i hl => ?_⟩
  obtain rfl := Option.some.inj hl
  exact ⟨hlt, nofun⟩

theorem land (hk : t.Knows fs l) (hland : fs.land? token = some (f, fs')) (hids : t'.ids = t.ids) :
    t'.Knows fs' l := by
  obtain ⟨-, -, hfs⟩ := Flights.land?_eq_some hland
  refine ⟨fun g hg => ?_, fun i hl => ?_⟩
  · rw [hfs] at hg
    exact hids ▸ hk.flights g (List.mem_of_mem_filter hg)
  · obtain ⟨hlt, hnone⟩ := hk.launch i hl
    refine ⟨hids ▸ hlt, fun hpages => ?_⟩
    rw [Flights.ofTask_land hland, hnone hpages]
    rfl

end Knows

namespace Exact

theorem enroll (hi : t.Exact fs none id) (hk : t.Knows fs none) (hnew : task.id = t.allocate.1) :
    (t.allocate.2.register task).Exact fs
      (some { task := task.id, region := task.holds.region }) id := by
  unfold Exact at hi ⊢
  rw [outstandingOf_register]
  split
  · next he =>
    rw [he, launchBias_self { task := task.id, region := task.holds.region },
      hk.ofTask_eq_nil (Nat.le_of_eq (by rw [hnew]; rfl))]
    rfl
  · next hne =>
    rw [launchBias_of_ne (Ne.symm hne)]
    exact hi

theorem endLaunch (hi : t.Exact fs (some i) id) : (t.finish i.task).2.Exact fs none id := by
  unfold Exact at hi ⊢
  rw [outstandingOf_finish, launchBias_none]
  split
  · next he =>
    rw [he, launchBias_self] at hi
    rw [he]
    exact Nat.sub_eq_of_eq_add hi
  · next hne =>
    rw [launchBias_of_ne (Ne.symm hne)] at hi
    exact hi

theorem offer (hi : t.Exact fs l id) (next : Nat) :
    (t.begin f.task).Exact ⟨next, f :: fs.flights⟩ l id := by
  unfold Exact at hi ⊢
  rw [outstandingOf_begin, Flights.ofTask_cons]
  split
  · next he =>
    rw [he] at hi ⊢
    rw [hi, List.length_cons]
    exact Nat.add_right_comm ..
  · exact hi

theorem land (hi : t.Exact fs l id) (hn : (fs.flights.map Flight.token).Nodup)
    (hland : fs.land? token = some (f, fs')) : (t.finish f.task).2.Exact fs' l id := by
  have hlength := Flights.length_ofTask_land hn hland id
  unfold Exact at hi ⊢
  rw [outstandingOf_finish]
  split
  · next he =>
    rw [if_pos he] at hlength
    rw [he] at hi hlength ⊢
    omega
  · next hne =>
    rw [if_neg hne] at hlength
    omega

end Exact

theorem GivenUp.not_exact (hg : t.GivenUp fs due l id) : ¬t.Exact fs l id := by
  unfold Exact
  rw [hg.count, hg.idle.flights, hg.idle.launch]
  exact Nat.one_ne_zero

/-- A task with a count of zero is idle. -/
theorem Exact.idle (hi : t.Exact fs l id) (hlt : id.id < t.ids.next)
    (hzero : t.outstandingOf id = 0) : t.Idle fs l id := by
  unfold Exact at hi
  exact ⟨hlt, List.length_eq_zero_iff.1 (by omega), by omega⟩

namespace Idle

theorem ne_task (hi : t.Idle fs l id) (hf : f ∈ fs.flights) : id ≠ f.task := by
  rintro rfl
  have hmem := Flights.mem_ofTask.2 ⟨hf, rfl⟩
  rw [hi.flights] at hmem
  cases hmem

theorem ne_allocate (hi : t.Idle fs l id) : id ≠ t.allocate.1 := by
  rintro rfl
  exact Nat.lt_irrefl _ hi.bound

theorem enroll (hi : t.Idle fs l id) (hnew : task.id = t.allocate.1) :
    (t.allocate.2.register task).Idle fs
      (some { task := task.id, region := task.holds.region }) id where
  bound := Nat.lt_succ_of_lt hi.bound
  flights := hi.flights
  launch := launchBias_of_ne (hnew ▸ hi.ne_allocate.symm)

theorem offer {r : Region} {pages : List HostPage}
    (hi : t.Idle fs (some ⟨f.task, r, some pages⟩) id) (next : Nat) :
    (t.begin f.task).Idle ⟨next, f :: fs.flights⟩ (some ⟨f.task, r, some pages⟩) id where
  bound := hi.bound
  flights := by
    rw [Flights.ofTask_cons, if_neg (launchBias_eq_zero_iff.1 hi.launch).symm]
    exact hi.flights
  launch := hi.launch

theorem land (hi : t.Idle fs l id) (hland : fs.land? token = some (f, fs'))
    (hids : t'.ids = t.ids) : t'.Idle fs' l id where
  bound := hids ▸ hi.bound
  flights := by
    rw [Flights.ofTask_land hland, hi.flights]
    rfl
  launch := hi.launch

end Idle

end Tasks

/-! ### Moves -/

namespace Moment

/-- The count of a task is exact. -/
def Exact (m : Moment ε) (id : TaskId) : Prop :=
  m.world.core.tasks.Exact m.world.core.flights m.hand.launch id

/-- Nothing of a task is in flight, and its launch is over. -/
def Idle (m : Moment ε) (id : TaskId) : Prop :=
  m.world.core.tasks.Idle m.world.core.flights m.hand.launch id

/-- The launch of a task has been given up. -/
def GivenUp (m : Moment ε) (id : TaskId) : Prop :=
  m.world.core.tasks.GivenUp m.world.core.flights m.hand.due m.hand.launch id

/-- Submissions and launches are those of tasks that have been admitted. -/
def Known (m : Moment ε) : Prop := m.world.core.tasks.Knows m.world.core.flights m.hand.launch

/-- From `m` to `m'`, the launch of a task is given up before its sources are resolved, and its
cleanup falls due. -/
structure Abandons (m m' : Moment ε) (id : TaskId) : Prop where
  launch : ∃ r, m.hand.launch = some { task := id, region := r }
  launchEnds : m'.hand.launch = none
  due : m'.hand.due = id :: m.hand.due
  world : m'.world = m.world

end Moment

theorem Move.known (h : Move p stray m m') (hi : m.Known) : m'.Known := by
  unfold Moment.Known at hi ⊢
  cases h with
  | detach w k h use map cause found unused =>
    dsimp only
    rw [World.unpinRegion_core]
    exact hi
  | resume w k s =>
    dsimp only
    rw [World.resume_core]
    exact hi
  | install w k id rest displaced tasks found waits =>
    obtain ⟨task, -, -, rfl⟩ := Tasks.install?_eq_some found
    exact { hi with }
  | enroll w k h task use new nobody nothing found same => exact hi.enroll new
  | remove w k id task tasks found =>
    obtain ⟨-, rfl⟩ := Tasks.remove?_eq_some found
    exact { hi with }
  | retain w k id r pins tasks found =>
    obtain ⟨task, -, rfl⟩ := Tasks.retain?_eq_some found
    exact hi.resolved rfl
  | retainGone w k id r pages none => exact hi.resolved rfl
  | endLaunch w k l => exact hi.endLaunch (Tasks.ids_finish _ _)
  | abandon w k id r => exact hi.endLaunch rfl
  | offer w k id r pages run inside backed =>
    exact Tasks.Knows.offer (f := w.nextFlight id run) hi _
  | land w k token f flights found => exact hi.land found (Tasks.ids_finish _ _)
  | _ => exact { hi with }

/-- A move keeps a count exact, unless it gives the launch of the task up. -/
theorem Move.exact (h : Move p stray m m') (ht : m.Tracked) (hk : m.Known) (hi : m.Exact id) :
    m'.Exact id ∨ m.Abandons m' id := by
  unfold Moment.Exact at hi ⊢
  cases h with
  | detach w k h use map cause found unused =>
    dsimp only
    rw [World.unpinRegion_core]
    exact .inl hi
  | resume w k s =>
    dsimp only
    rw [World.resume_core]
    exact .inl hi
  | install w k other rest displaced tasks found waits =>
    obtain ⟨task, -, -, rfl⟩ := Tasks.install?_eq_some found
    exact .inl hi
  | enroll w k h task use new nobody nothing found same => exact .inl (hi.enroll hk new)
  | remove w k other task tasks found =>
    obtain ⟨-, rfl⟩ := Tasks.remove?_eq_some found
    exact .inl hi
  | retain w k other r pins tasks found =>
    obtain ⟨task, -, rfl⟩ := Tasks.retain?_eq_some found
    exact .inl hi
  | endLaunch w k l => exact .inl hi.endLaunch
  | abandon w k other r =>
    by_cases he : other = id
    · subst he
      exact .inr ⟨⟨r, rfl⟩, rfl, rfl, rfl⟩
    · unfold Tasks.Exact at hi
      rw [launchBias_of_ne he] at hi
      exact .inl hi
  | offer w k other r pages run inside backed =>
    exact .inl (Tasks.Exact.offer (f := w.nextFlight other run) hi _)
  | land w k token f flights found => exact .inl (hi.land ht.nodup found)
  | _ => exact .inl hi

/-- An idle task stays idle and keeps its count. -/
theorem Move.idle (h : Move p stray m m') (hi : m.Idle id) :
    m'.Idle id ∧ m'.world.core.tasks.outstandingOf id = m.world.core.tasks.outstandingOf id := by
  unfold Moment.Idle at hi ⊢
  cases h with
  | detach w k h use map cause found unused =>
    dsimp only
    rw [World.unpinRegion_core]
    exact ⟨hi, rfl⟩
  | resume w k s =>
    dsimp only
    rw [World.resume_core]
    exact ⟨hi, rfl⟩
  | install w k other rest displaced tasks found waits =>
    obtain ⟨task, -, -, rfl⟩ := Tasks.install?_eq_some found
    exact ⟨{ hi with }, rfl⟩
  | enroll w k h task use new nobody nothing found same =>
    exact ⟨hi.enroll new, (Tasks.outstandingOf_register ..).trans (if_neg (new ▸ hi.ne_allocate))⟩
  | remove w k other task tasks found =>
    obtain ⟨-, rfl⟩ := Tasks.remove?_eq_some found
    exact ⟨{ hi with }, rfl⟩
  | retain w k other r pins tasks found =>
    obtain ⟨task, -, rfl⟩ := Tasks.retain?_eq_some found
    exact ⟨{ hi with launch := hi.launch }, rfl⟩
  | retainGone w k other r pages none => exact ⟨{ hi with launch := hi.launch }, rfl⟩
  | endLaunch w k l =>
    have hne := (Tasks.launchBias_eq_zero_iff.1 hi.launch).symm
    exact ⟨⟨(Tasks.ids_finish _ _).symm ▸ hi.bound, hi.flights, rfl⟩,
      (Tasks.outstandingOf_finish ..).trans (if_neg hne)⟩
  | abandon w k other r => exact ⟨{ hi with launch := rfl }, rfl⟩
  | offer w k other r pages run inside backed =>
    have hne := (Tasks.launchBias_eq_zero_iff.1 hi.launch).symm
    exact ⟨Tasks.Idle.offer (f := w.nextFlight other run) hi _,
      (Tasks.outstandingOf_begin ..).trans (if_neg hne)⟩
  | land w k token f flights found =>
    have hne := hi.ne_task (Flights.land?_eq_some found).1
    exact ⟨hi.land found (Tasks.ids_finish _ _),
      (Tasks.outstandingOf_finish ..).trans (if_neg hne)⟩
  | _ => exact ⟨{ hi with }, rfl⟩

/-- What is about to go goes, and what is gone does not come back. -/
theorem Move.ending (h : Move p stray m m') (hlt : id.id < m.world.core.tasks.ids.next)
    (hi : m.world.core.tasks.Ending m.hand.due id) :
    m'.world.core.tasks.Ending m'.hand.due id := by
  cases h with
  | detach w k h use map cause found unused =>
    dsimp only
    rw [World.unpinRegion_core]
    exact hi
  | resume w k s =>
    dsimp only
    rw [World.resume_core]
    exact hi
  | install w k other rest displaced tasks found waits =>
    obtain ⟨task, hf, -, rfl⟩ := Tasks.install?_eq_some found
    exact hi.imp_right (Sharded.find?_insert_eq_none hf)
  | enroll w k h task use new nobody nothing found same =>
    refine hi.imp_right fun hnone => (Sharded.find?_insert ..).trans ((if_neg ?_).trans hnone)
    rintro rfl
    rw [new] at hlt
    exact Nat.lt_irrefl _ hlt
  | stray w k other allowed => exact hi.imp_left (List.mem_cons_of_mem _)
  | remove w k other task tasks found =>
    obtain ⟨-, rfl⟩ := Tasks.remove?_eq_some found
    by_cases he : id = other
    · exact .inr (he ▸ Sharded.find?_erase_self ..)
    · exact hi.imp (fun hmem => (List.mem_cons.1 hmem).resolve_left he) Sharded.find?_erase_eq_none
  | unknown w k other none =>
    have hnone : w.core.tasks.table.find? other = Option.none := Option.map_eq_none_iff.1 none
    by_cases he : id = other
    · exact .inr (he ▸ hnone)
    · exact hi.imp_left fun hmem => (List.mem_cons.1 hmem).resolve_left he
  | retain w k other r pins tasks found =>
    obtain ⟨task, hf, rfl⟩ := Tasks.retain?_eq_some found
    exact hi.imp_right (Sharded.find?_insert_eq_none hf)
  | endLaunch w k l =>
    refine hi.imp (List.mem_append_right _) fun hnone => ?_
    show (w.core.tasks.finish l.task).2.table.find? id = none
    rw [Tasks.table_finish]
    exact hnone
  | abandon w k other r => exact hi.imp_left (List.mem_cons_of_mem _)
  | land w k token f flights found =>
    refine hi.imp (List.mem_append_right _) fun hnone => ?_
    show (w.core.tasks.finish f.task).2.table.find? id = none
    rw [Tasks.table_finish]
    exact hnone
  | _ => exact hi

/-- A task whose launch has been given up keeps its count. -/
theorem Move.givenUp (h : Move p stray m m') (hi : m.GivenUp id) : m'.GivenUp id := by
  obtain ⟨hidle, hcount⟩ := h.idle hi.idle
  exact ⟨hidle, hcount.trans hi.count, h.ending hi.idle.bound hi.ending⟩

namespace Moment

/-- The count of each task is exact, or its launch has been given up. -/
structure Metered (m : Moment ε) : Prop where
  known : m.Known
  counts : ∀ id, m.Exact id ∨ m.GivenUp id

theorem Abandons.givenUp (h : m.Abandons m' id) (hk : m.Known) (hi : m.Exact id) :
    m'.GivenUp id := by
  obtain ⟨r, hl⟩ := h.launch
  obtain ⟨hlt, hnone⟩ := hk.launch _ hl
  have hcount : m.world.core.tasks.outstandingOf id = 1 := by
    refine hi.trans ?_
    rw [hl, launchBias_self { task := id, region := r }, hnone rfl]
    rfl
  unfold GivenUp
  rw [h.world, h.launchEnds, h.due]
  exact ⟨⟨hlt, hnone rfl, rfl⟩, hcount, .inl (List.mem_cons_self ..)⟩

namespace Metered

/-- What is in flight is counted. -/
theorem pos_of_flight (hi : m.Metered) {f : Flight} (hf : f ∈ m.world.core.flights.flights) :
    0 < m.world.core.tasks.outstandingOf f.task := by
  rcases hi.counts f.task with he | hg
  · have hpos := List.length_pos_of_mem (Flights.mem_ofTask.2 ⟨hf, rfl⟩)
    unfold Exact Tasks.Exact at he
    omega
  · exact absurd rfl (hg.idle.ne_task hf)

/-- A launch is counted. -/
theorem pos_of_launch (hi : m.Metered) {i : LaunchInHand} (hl : m.hand.launch = some i) :
    0 < m.world.core.tasks.outstandingOf i.task := by
  rcases hi.counts i.task with he | hg
  · unfold Exact Tasks.Exact at he
    rw [hl, launchBias_self] at he
    omega
  · have hnone := hg.idle.launch
    rw [hl, launchBias_self] at hnone
    cases hnone

/-- A count of zero is that of an idle task. -/
theorem idle (hi : m.Metered) (hlt : id.id < m.world.core.tasks.ids.next)
    (hzero : m.world.core.tasks.outstandingOf id = 0) : m.Idle id := by
  rcases hi.counts id with he | hg
  · exact Tasks.Exact.idle he hlt hzero
  · exact hg.idle

end Metered

end Moment

theorem Move.metered (h : Move p stray m m') (ht : m.Tracked) (hi : m.Metered) : m'.Metered where
  known := h.known hi.known
  counts id := by
    rcases hi.counts id with he | hg
    · exact (h.exact ht hi.known he).imp_right fun ha => ha.givenUp hi.known he
    · exact .inr (h.givenUp hg)

/-- The launch of a task is given up by the move that abandons it, and by no other. -/
theorem Move.abandons (h : Move p stray m m') (ht : m.Tracked) (hi : m.Metered)
    (hg : m'.GivenUp id) : m.GivenUp id ∨ m.Abandons m' id := by
  rcases hi.counts id with he | hg'
  · exact .inr ((h.exact ht hi.known he).resolve_left hg.not_exact)
  · exact .inl hg'

/-! ## Tasks that have been admitted -/

namespace Tasks

/-- The ids that have been given out. -/
def admittedIds (t : Tasks) : List TaskId := (List.range t.stats.admitted).map fun i => ⟨i + 1⟩

/-- Every id that has been given out is that of a registered task or of one that has ended, and
stands for one task only. -/
structure Numbers (t : Tasks) (ended : List TaskId) : Prop where
  next : t.ids.next = t.stats.admitted + 1
  once : (t.table.keys ++ ended).Perm t.admittedIds

namespace Numbers

variable {t t' : Tasks} {ended ended' : List TaskId} {task task' : Task}

theorem congr (hi : t.Numbers ended) (hids : t'.ids = t.ids)
    (hadmitted : t'.stats.admitted = t.stats.admitted)
    (hkeys : (t'.table.keys ++ ended').Perm (t.table.keys ++ ended)) : t'.Numbers ended' where
  next := by rw [hids, hadmitted]; exact hi.next
  once := by
    unfold admittedIds
    rw [hadmitted]
    exact hkeys.trans hi.once

/-- One task changes. -/
theorem insert (hi : t.Numbers ended) (hf : t.table.find? id = some task) :
    ({ t with table := t.table.insert id task' } : Tasks).Numbers ended :=
  hi.congr rfl rfl ((Sharded.keys_insert_perm hf).append_right _)

theorem enroll (hi : t.Numbers ended) (hnew : task.id = t.allocate.1)
    (hnone : t.table.find? task.id = none) : (t.allocate.2.register task).Numbers ended where
  next := congrArg (· + 1) hi.next
  once := by
    have hid : task.id = ⟨t.stats.admitted + 1⟩ := hnew.trans (congrArg TaskId.mk hi.next)
    have hids : (t.allocate.2.register task).admittedIds =
        t.admittedIds ++ [⟨t.stats.admitted + 1⟩] := by
      show (List.range (t.stats.admitted + 1)).map _ = _
      rw [List.range_succ, List.map_append]
      rfl
    rw [hids, ← hid]
    exact (((Sharded.keys_insert_new task hnone).append_right _).trans
      (hi.once.cons _)).trans (List.perm_append_singleton ..).symm

theorem remove (hi : t.Numbers ended) (hr : t.remove? id = some (task, t')) :
    t'.Numbers (id :: ended) := by
  obtain ⟨hf, rfl⟩ := remove?_eq_some hr
  refine hi.congr rfl rfl (List.perm_middle.trans ?_)
  exact (Sharded.keys_perm hf).symm.append_right ended

theorem finish (hi : t.Numbers ended) (id : TaskId) : (t.finish id).2.Numbers ended :=
  hi.congr (ids_finish ..) (by rw [stats_finish]) (by rw [table_finish])

theorem length (hi : t.Numbers ended) : t.stats.admitted = t.size + ended.length := by
  have hlength := hi.once.length_eq
  rw [List.length_append, Sharded.length_keys, admittedIds, List.length_map,
    List.length_range] at hlength
  exact hlength.symm

theorem mem_iff (hi : t.Numbers ended) : id ∈ t.admittedIds ↔ 0 < id.id ∧ id.id < t.ids.next := by
  rw [hi.next]
  constructor
  · intro hid
    obtain ⟨i, hlt, rfl⟩ := List.mem_map.1 hid
    exact ⟨Nat.succ_pos i, Nat.succ_lt_succ (List.mem_range.1 hlt)⟩
  · rintro ⟨hpos, hlt⟩
    refine List.mem_map.2 ⟨id.id - 1, List.mem_range.2 (by omega), ?_⟩
    rw [Nat.sub_add_cancel hpos]

end Numbers

/-- A registered task is counted, or its cleanup is due. -/
def Needs (t : Tasks) (due : List TaskId) : Prop :=
  ∀ id, t.table.find? id ≠ none → id ∈ due ∨ 0 < t.outstandingOf id

end Tasks

namespace Moment

/-- The tasks that have been cleaned up, or are being cleaned up. -/
def ended (m : Moment ε) : List TaskId := m.hand.closing ++ m.world.record Event.completes

/-- Every task that has been admitted is registered or has ended. -/
def Numbered (m : Moment ε) : Prop := m.world.core.tasks.Numbers m.ended

/-- A task is registered. -/
def Registered (m : Moment ε) (id : TaskId) : Prop := m.world.core.tasks.table.find? id ≠ none

/-- A submission of a task is in flight, or the task is being launched. -/
def Busy (m : Moment ε) (id : TaskId) : Prop :=
  (∃ f ∈ m.world.core.flights.flights, f.task = id) ∨ ∃ l, m.hand.launch = some l ∧ l.task = id

/-- A registered task is counted, or its cleanup is due. -/
def Needed (m : Moment ε) : Prop := m.world.core.tasks.Needs m.hand.due

/-- Tasks whose cleanup is due are registered, and their cleanup is due once. -/
structure Timely (m : Moment ε) : Prop where
  nodup : m.hand.due.Nodup
  registered : ∀ id ∈ m.hand.due, m.Registered id

end Moment

theorem Move.numbered (h : Move p stray m m') (hc : m.Counted) (hi : m.Numbered) :
    m'.Numbered := by
  unfold Moment.Numbered Moment.ended at hi ⊢
  cases h with
  | log w k e he =>
    rw [World.record_log _ _ he]
    exact hi
  | detach w k h use map cause found unused =>
    dsimp only
    rw [World.unpinRegion_core, World.unpinRegion_record]
    exact hi
  | resume w k s =>
    dsimp only
    rw [World.resume_core, World.resume_record_eq p s w (fun _ _ => rfl) fun _ _ _ _ => rfl]
    exact hi
  | release w k pins =>
    dsimp only
    rw [World.release_record p rfl]
    exact hi
  | install w k other rest displaced tasks found waits =>
    obtain ⟨task, hf, -, rfl⟩ := Tasks.install?_eq_some found
    exact Tasks.Numbers.insert hi hf
  | retain w k other r pins tasks found =>
    obtain ⟨task, hf, rfl⟩ := Tasks.retain?_eq_some found
    exact Tasks.Numbers.insert hi hf
  | enroll w k h task use new nobody nothing found same =>
    exact hi.enroll new (new ▸ hc.find?_allocate)
  | remove w k other task tasks found => exact hi.remove found
  | completed w k other => exact hi.congr rfl rfl (List.perm_middle.append_left _)
  | endLaunch w k l => exact hi.finish l.task
  | land w k token f flights found => exact hi.finish f.task
  | _ => exact { hi with }

/-! ## Cleanups -/

namespace Tasks

variable {t t' : Tasks} {due : List TaskId} {task task' : Task} {other : TaskId}

theorem mem_dueAfter : id ∈ t.dueAfter other ↔ id = other ∧ t.outstandingOf other = 1 := by
  unfold dueAfter
  split
  · next h => simp [(finish_fst_iff t other).1 h]
  · next h => simp [(finish_fst_iff t other).not.1 h]

namespace Needs

/-- One task changes. -/
theorem insert (hi : t.Needs due) (hf : t.table.find? other = some task) :
    ({ t with table := t.table.insert other task' } : Tasks).Needs due :=
  fun id hid => hi id (mt (Sharded.find?_insert_eq_none hf) hid)

theorem enroll (hi : t.Needs due) : (t.allocate.2.register task).Needs due := by
  intro id hid
  have hfind : (t.allocate.2.register task).table.find? id =
      if id = task.id then some task else t.table.find? id := Sharded.find?_insert ..
  rw [outstandingOf_register]
  split
  · exact .inr Nat.one_pos
  · next hne =>
    rw [hfind, if_neg hne] at hid
    exact hi id hid

theorem remove (hi : t.Needs (other :: due)) (hr : t.remove? other = some (task, t')) :
    t'.Needs due := by
  obtain ⟨-, rfl⟩ := remove?_eq_some hr
  intro id hid
  refine (hi id (mt Sharded.find?_erase_eq_none hid)).imp_left fun hdue =>
    (List.mem_cons.1 hdue).resolve_left ?_
  rintro rfl
  exact hid (Sharded.find?_erase_self ..)

theorem unknown (hi : t.Needs (other :: due)) (hnone : t.table.find? other = none) :
    t.Needs due := by
  refine fun id hid => (hi id hid).imp_left fun hdue => (List.mem_cons.1 hdue).resolve_left ?_
  rintro rfl
  exact hid hnone

theorem more (hi : t.Needs due) : t.Needs (other :: due) :=
  fun id hid => (hi id hid).imp_left (List.mem_cons_of_mem _)

theorem begin (hi : t.Needs due) : (t.begin other).Needs due := by
  intro id hid
  rw [outstandingOf_begin]
  refine (hi id hid).imp_right fun hpos => ?_
  split
  · exact Nat.succ_pos _
  · exact hpos

/-- A count that drops to zero makes the cleanup due. -/
theorem finish (hi : t.Needs due) : (t.finish other).2.Needs (t.dueAfter other ++ due) := by
  intro id hid
  rw [table_finish] at hid
  rw [List.mem_append, mem_dueAfter, outstandingOf_finish]
  split
  · next he =>
    subst he
    rcases hi id hid with hdue | hpos
    · exact .inl (.inr hdue)
    · by_cases hone : t.outstandingOf id = 1
      · exact .inl (.inl ⟨rfl, hone⟩)
      · exact .inr (by omega)
  · exact (hi id hid).imp_left .inr

end Needs

namespace Covers

variable {pageSize : Nat} {fs : Flights} {l : Option LaunchInHand}

/-- What is in flight or launched is registered, and not to be cleaned up. -/
theorem registered (hi : t.Covers pageSize fs due l)
    (hbusy : (∃ f ∈ fs.flights, f.task = id) ∨ ∃ i, l = some i ∧ i.task = id) :
    t.table.find? id ≠ none ∧ id ∉ due := by
  rcases hbusy with ⟨f, hf, rfl⟩ | ⟨i, rfl, rfl⟩
  · obtain ⟨task, ht, -⟩ := hi.flights f hf
    refine ⟨by rw [ht]; nofun, fun hdue => ?_⟩
    have hmem := Flights.mem_ofTask.2 ⟨hf, rfl⟩
    rw [(hi.due _ hdue).1] at hmem
    cases hmem
  · obtain ⟨task, ht, -⟩ := hi.launch i rfl
    refine ⟨by rw [ht]; nofun, fun hdue => ?_⟩
    have hbias := (hi.due _ hdue).2.1
    rw [launchBias_self] at hbias
    cases hbias

end Covers

end Tasks

theorem Move.needed (h : Move p stray m m') (hi : m.Needed) : m'.Needed := by
  unfold Moment.Needed at hi ⊢
  cases h with
  | detach w k h use map cause found unused =>
    dsimp only
    rw [World.unpinRegion_core]
    exact hi
  | resume w k s =>
    dsimp only
    rw [World.resume_core]
    exact hi
  | install w k other rest displaced tasks found waits =>
    obtain ⟨task, hf, -, rfl⟩ := Tasks.install?_eq_some found
    exact Tasks.Needs.insert hi hf
  | retain w k other r pins tasks found =>
    obtain ⟨task, hf, rfl⟩ := Tasks.retain?_eq_some found
    exact Tasks.Needs.insert hi hf
  | enroll w k h task use new nobody nothing found same => exact Tasks.Needs.enroll hi
  | stray w k other allowed => exact Tasks.Needs.more hi
  | remove w k other task tasks found => exact Tasks.Needs.remove hi found
  | unknown w k other none => exact Tasks.Needs.unknown hi (Option.map_eq_none_iff.1 none)
  | endLaunch w k l => exact Tasks.Needs.finish hi
  | land w k token f flights found => exact Tasks.Needs.finish hi
  | abandon w k other r => exact Tasks.Needs.more hi
  | offer w k other r pages run inside backed => exact Tasks.Needs.begin hi
  | _ => exact hi

/-- A task stays registered until its cleanup, which is due. -/
theorem Move.registered (h : Move p stray m m') (hr : m.Registered id)
    (hd : m.hand.due ≠ id :: m'.hand.due) : m'.Registered id := by
  unfold Moment.Registered at hr ⊢
  cases h with
  | detach w k h use map cause found unused =>
    dsimp only
    rw [World.unpinRegion_core]
    exact hr
  | resume w k s =>
    dsimp only
    rw [World.resume_core]
    exact hr
  | install w k other rest displaced tasks found waits =>
    obtain ⟨task, hf, -, rfl⟩ := Tasks.install?_eq_some found
    exact Sharded.find?_insert_ne_none hr
  | retain w k other r pins tasks found =>
    obtain ⟨task, hf, rfl⟩ := Tasks.retain?_eq_some found
    exact Sharded.find?_insert_ne_none hr
  | enroll w k h task use new nobody nothing found same => exact Sharded.find?_insert_ne_none hr
  | remove w k other task tasks found =>
    obtain ⟨hf, rfl⟩ := Tasks.remove?_eq_some found
    have hne : id ≠ other := fun he => hd (he ▸ rfl)
    exact (Sharded.find?_erase ..).trans_ne ((if_neg hne).trans_ne hr)
  | endLaunch w k l => exact (congrArg (Sharded.find? · id) (Tasks.table_finish ..)).trans_ne hr
  | land w k token f flights found =>
    exact (congrArg (Sharded.find? · id) (Tasks.table_finish ..)).trans_ne hr
  | _ => exact hr

namespace Moment

/-- From `m` to `m'`, the launch of a task is given up, or its count drops to zero. -/
def Ends (m m' : Moment ε) (id : TaskId) : Prop :=
  m.Abandons m' id ∨
    m.world.core.tasks.outstandingOf id = 1 ∧ m'.world.core.tasks.outstandingOf id = 0

end Moment

/-- One task less is due, or one more, which has ended or is cleaned up by somebody else. -/
theorem Move.due (h : Move p stray m m') : m'.hand.due = m.hand.due ∨
    (∃ id, m.hand.due = id :: m'.hand.due) ∨
      ∃ id, m'.hand.due = id :: m.hand.due ∧ (stray ∨ m.Ends m' id) := by
  have hfinish (t : Tasks) (id : TaskId) : t.dueAfter id = [] ∨
      t.dueAfter id = [id] ∧ t.outstandingOf id = 1 ∧ (t.finish id).2.outstandingOf id = 0 := by
    unfold Tasks.dueAfter
    split
    · next hlast =>
      have hone := (Tasks.finish_fst_iff t id).1 hlast
      rw [Tasks.outstandingOf_finish, if_pos rfl, hone]
      exact .inr ⟨rfl, rfl, rfl⟩
    · exact .inl rfl
  cases h with
  | stray w k id allowed => exact .inr (.inr ⟨id, rfl, .inl allowed⟩)
  | remove w k id task tasks found => exact .inr (.inl ⟨id, rfl⟩)
  | unknown w k id none => exact .inr (.inl ⟨id, rfl⟩)
  | endLaunch w k l =>
    obtain he | ⟨he, hcount⟩ := hfinish w.core.tasks l.task
    · exact .inl (congrArg (· ++ _) he)
    · exact .inr (.inr ⟨l.task, congrArg (· ++ _) he, .inr (.inr hcount)⟩)
  | land w k token f flights found =>
    obtain he | ⟨he, hcount⟩ := hfinish w.core.tasks f.task
    · exact .inl (congrArg (· ++ _) he)
    · exact .inr (.inr ⟨f.task, congrArg (· ++ _) he, .inr (.inr hcount)⟩)
  | abandon w k id r => exact .inr (.inr ⟨id, rfl, .inr (.inl ⟨⟨r, rfl⟩, rfl, rfl, rfl⟩)⟩)
  | _ => exact .inl rfl

/-- A task that ends was in flight or launched until then, and falls due. -/
theorem Move.ends (h : Move p stray m m') (he : m.Ends m' id) : m.Busy id ∧ id ∈ m'.hand.due := by
  rcases he with ha | ⟨hone, hzero⟩
  · obtain ⟨r, hl⟩ := ha.launch
    exact ⟨.inr ⟨_, hl, rfl⟩, ha.due ▸ List.mem_cons_self ..⟩
  have hfinish (t : Tasks) (other : TaskId) (ho : t.outstandingOf id = 1)
      (hz : (t.finish other).2.outstandingOf id = 0) :
      other = id ∧ id ∈ t.dueAfter other := by
    rw [Tasks.outstandingOf_finish] at hz
    split at hz
    · next he => exact ⟨he.symm, Tasks.mem_dueAfter.2 ⟨he, he ▸ ho⟩⟩
    · cases ho.symm.trans hz
  cases h with
  | detach w k h use map cause found unused =>
    dsimp only at hone hzero
    rw [World.unpinRegion_core] at hzero
    cases hone.symm.trans hzero
  | resume w k s =>
    dsimp only at hone hzero
    rw [World.resume_core] at hzero
    cases hone.symm.trans hzero
  | install w k other rest displaced tasks found waits =>
    obtain ⟨task, -, -, rfl⟩ := Tasks.install?_eq_some found
    cases hone.symm.trans hzero
  | retain w k other r pins tasks found =>
    obtain ⟨task, -, rfl⟩ := Tasks.retain?_eq_some found
    cases hone.symm.trans hzero
  | enroll w k h task use new nobody nothing found same =>
    replace hzero := (Tasks.outstandingOf_register ..).symm.trans hzero
    split at hzero
    · cases hzero
    · cases hone.symm.trans hzero
  | remove w k other task tasks found =>
    obtain ⟨-, rfl⟩ := Tasks.remove?_eq_some found
    cases hone.symm.trans hzero
  | offer w k other r pages run inside backed =>
    replace hzero := (Tasks.outstandingOf_begin ..).symm.trans hzero
    split at hzero
    · cases hzero
    · cases hone.symm.trans hzero
  | endLaunch w k l =>
    obtain ⟨he, hmem⟩ := hfinish _ _ hone hzero
    exact ⟨.inr ⟨l, rfl, he⟩, List.mem_append_left _ hmem⟩
  | land w k token f flights found =>
    obtain ⟨he, hmem⟩ := hfinish _ _ hone hzero
    exact ⟨.inl ⟨f, (Flights.land?_eq_some found).1, he⟩, List.mem_append_left _ hmem⟩
  | _ => cases hone.symm.trans hzero

/-- What ends is registered until then, and not to be cleaned up yet. -/
theorem Move.registered_of_ends (h : Move p stray m m') (hi : m.Covered) (he : m.Ends m' id) :
    m.Registered id ∧ id ∉ m.hand.due := Tasks.Covers.registered hi (h.ends he).1

/-- A task falls due when it ends, if nobody else cleans tasks up. -/
theorem Move.ends_of_due (h : Move p stray m m') (hs : ¬stray) (hd : id ∈ m'.hand.due) :
    id ∈ m.hand.due ∨ m.Ends m' id := by
  obtain he | ⟨other, he⟩ | ⟨other, he, hends⟩ := h.due
  · exact .inl (he ▸ hd)
  · exact .inl (he ▸ List.mem_cons_of_mem _ hd)
  · rw [he] at hd
    rcases List.mem_cons.1 hd with rfl | hd
    · exact .inr (hends.resolve_left hs)
    · exact .inl hd

theorem Move.timely (h : Move p stray m m') (hs : ¬stray) (hc : m.Covered) (hi : m.Timely) :
    m'.Timely where
  nodup := by
    obtain he | ⟨other, he⟩ | ⟨other, he, hends⟩ := h.due
    · exact he ▸ hi.nodup
    · exact (List.nodup_cons.1 (he ▸ hi.nodup)).2
    · rw [he]
      exact List.nodup_cons.2 ⟨(h.registered_of_ends hc (hends.resolve_left hs)).2, hi.nodup⟩
  registered id hid := by
    rcases h.ends_of_due hs hid with hd | hends
    · refine h.registered (hi.registered id hd) fun he => ?_
      exact (List.nodup_cons.1 (he ▸ hi.nodup)).1 hid
    · obtain ⟨hr, hd⟩ := h.registered_of_ends hc hends
      exact h.registered hr fun he => hd (he ▸ List.mem_cons_self ..)

/-! ## At every moment -/

namespace Moment

/-- What is known of tasks. -/
structure Tallied (m : Moment ε) : Prop where
  accounted : m.Accounted
  tracked : m.Tracked
  metered : m.Metered
  numbered : m.Numbered
  needed : m.Needed

theorem tallied_fresh (placement : Placement) (config : Config) (x : ε) :
    Tallied ⟨.fresh placement config x, {}⟩ where
  accounted := accounted_fresh placement config x
  tracked := (steady_fresh placement config x).tracked
  metered := ⟨⟨nofun, nofun⟩, fun _ => .inl rfl⟩
  numbered := by
    have hkeys : (World.fresh placement config x).core.tasks.table.keys = [] :=
      congrArg (List.map Prod.fst) (Sharded.toList_empty ..)
    exact ⟨rfl, .of_eq (congrArg (· ++ []) hkeys)⟩
  needed := fun id hid => absurd (Sharded.find?_empty ..) hid

theorem timely_fresh (placement : Placement) (config : Config) (x : ε) :
    Timely ⟨.fresh placement config x, {}⟩ := ⟨List.nodup_nil, nofun⟩

namespace Tallied

/-- What is in flight or launched is counted. -/
theorem pos_of_busy (hi : m.Tallied) (h : m.Busy id) : 0 < m.world.core.tasks.outstandingOf id := by
  rcases h with ⟨f, hf, rfl⟩ | ⟨l, hl, rfl⟩
  · exact hi.metered.pos_of_flight hf
  · exact hi.metered.pos_of_launch hl

/-- A count that has dropped to zero stays there. -/
theorem count_eq_zero (hi : m.Tallied) (h : Move p stray m m')
    (hid : id ∈ m.world.core.tasks.admittedIds) (hzero : m.world.core.tasks.outstandingOf id = 0) :
    m'.world.core.tasks.outstandingOf id = 0 :=
  (h.idle (hi.metered.idle ((hi.numbered.mem_iff.1 hid).2) hzero)).2.trans hzero

/-- A task that has been admitted is registered or has ended. -/
theorem ended_of_admitted (hi : m.Tallied) (hid : id ∈ m.world.core.tasks.admittedIds)
    (hr : ¬m.Registered id) : id ∈ m.ended := by
  refine (List.mem_append.1 (hi.numbered.once.mem_iff.2 hid)).resolve_left fun hkey => hr ?_
  obtain ⟨task, ht⟩ := Sharded.mem_keys.1 hkey
  exact ht.trans_ne nofun

/-- The count of a registered task that is not to be cleaned up is exact. -/
theorem exact (hi : m.Tallied) (hr : m.Registered id) (hd : id ∉ m.hand.due) :
    m.Exact id ∧ 0 < m.world.core.tasks.outstandingOf id := by
  refine ⟨(hi.metered.counts id).resolve_right fun hg => ?_, (hi.needed id hr).resolve_left hd⟩
  exact hg.ending.elim hd hr

end Tallied

end Moment

theorem Move.tallied (h : Move p stray m m') (hi : m.Tallied) : m'.Tallied where
  accounted := h.accounted hi.accounted
  tracked := h.tracked hi.tracked
  metered := h.metered hi.tracked hi.metered
  numbered := h.numbered hi.accounted.counted hi.numbered
  needed := h.needed hi.needed

theorem Reach.tallied {s : System ε} (h : Reach p (fun _ => True) s) : s.moment.Tallied :=
  h.any_invariant Moment.tallied_fresh fun _ _ hm hi => hm.tallied hi

/-- A task that is over is idle. It has a count of zero, or its launch has been given up. -/
theorem Moment.Tallied.over (hi : m.Tallied) (hc : m.Covered)
    (ho : id ∈ m.hand.due ∨ ¬m.Registered id) :
    ¬m.Busy id ∧ (m.world.core.tasks.outstandingOf id = 0 ∨ m.GivenUp id) := by
  have hbusy : ¬m.Busy id := fun hbusy => by
    obtain ⟨hr, hd⟩ := Tasks.Covers.registered hc hbusy
    exact ho.elim hd (· hr)
  refine ⟨hbusy, (hi.metered.counts id).imp_left fun he => ?_⟩
  have hflights : m.world.core.flights.ofTask id = [] :=
    List.eq_nil_iff_forall_not_mem.2 fun f hf => hbusy (.inl ⟨f, Flights.mem_ofTask.1 hf⟩)
  have hlaunch : launchBias m.hand.launch id = 0 := by
    cases hl : m.hand.launch with
    | none => rfl
    | some l => exact launchBias_of_ne fun hl' => hbusy (.inr ⟨l, hl, hl'⟩)
  unfold Exact Tasks.Exact at he
  rw [he, hflights, hlaunch]
  rfl

/-- **Tasks are accounted for.** After any run of any calls, with channels that end submissions in
any order, and at any moment of the next call:

* The count of a task is that of its submissions in flight, plus one while it is launched. If its
  launch is given up, it stays at one. What is in flight or launched has a count above zero, and a
  count that has dropped to zero stays there.
* Every task that has been admitted is registered or has been cleaned up, once, and every request
  of the run has been admitted or rejected.
* If only the library itself cleans tasks up, a task is registered until it ends, which is when its
  launch is given up or its count drops to zero. Then its cleanup falls due, once, and once it is
  due the task does not end again. -/
theorem Trace.tasks_accounted {calls : List Call} {s : System ε} (h : Trace p calls s)
    (hs : stray ∨ p.CleansNothing) (hc : ∀ c ∈ calls, c.isCleanup → stray)
    (hm : Moves p stray s.moment m) :
    (∀ id, m.Exact id ∨ m.GivenUp id) ∧
    (∀ id, m.Busy id → 0 < m.world.core.tasks.outstandingOf id) ∧
    (∀ m', Move p stray m m' → ∀ id,
      (m'.GivenUp id → m.GivenUp id ∨ m.Abandons m' id) ∧
      (id ∈ m.world.core.tasks.admittedIds → m.world.core.tasks.outstandingOf id = 0 →
        m'.world.core.tasks.outstandingOf id = 0)) ∧
    (m.world.core.tasks.table.keys ++ m.ended).Perm m.world.core.tasks.admittedIds ∧
    m.world.core.tasks.stats.admitted = m.world.core.tasks.size + m.ended.length ∧
    s.world.core.tasks.stats.admitted + s.world.core.tasks.stats.rejected =
      calls.countP Call.isRequest ∧
    (¬stray →
      m.hand.due.Nodup ∧
      (∀ id ∈ m.world.core.tasks.admittedIds,
        m.Registered id ∧ id ∉ m.hand.due ∧ m.Exact id ∧
            0 < m.world.core.tasks.outstandingOf id ∨
          (m.Registered id ∧ id ∈ m.hand.due ∨ ¬m.Registered id ∧ id ∈ m.ended) ∧ ¬m.Busy id ∧
            (m.world.core.tasks.outstandingOf id = 0 ∨ m.GivenUp id)) ∧
      ∀ m', Move p stray m m' → ∀ id,
        (m.Ends m' id → m.Registered id ∧ id ∉ m.hand.due) ∧
        (id ∈ m'.hand.due ↔ id ∈ m.hand.due ∧ m'.Registered id ∨ m.Ends m' id) ∧
        (m.Registered id → ¬m'.Registered id → id ∈ m.hand.due)) := by
  have hreach : Reach p (fun c => c.isCleanup → stray) s := h.reach hc
  have hfresh (placement : Placement) (config : Config) (x : ε) :
      Moment.Tallied ⟨.fresh placement config x, {}⟩ ∧
        (¬stray → Moment.Covered ⟨.fresh placement config x, {}⟩ ∧
          Moment.Timely ⟨.fresh placement config x, {}⟩) :=
    ⟨Moment.tallied_fresh placement config x, fun _ =>
      ⟨(Moment.steady_fresh placement config x).covered, Moment.timely_fresh placement config x⟩⟩
  have hmove (m m' : Moment ε) (hm : Move p stray m m') :
      m.Tallied ∧ (¬stray → m.Covered ∧ m.Timely) →
        m'.Tallied ∧ (¬stray → m'.Covered ∧ m'.Timely) := fun ⟨hi, hlib⟩ =>
    ⟨hm.tallied hi, fun hn => ⟨hm.covered hn hi.accounted.counted (hlib hn).1,
      hm.timely hn (hlib hn).1 (hlib hn).2⟩⟩
  obtain ⟨hi, hlib⟩ := Moves.keeps hmove hm
    (hreach.invariant hs (fun _ hc hclean => hc hclean) hfresh hmove)
  refine ⟨hi.metered.counts, fun id => hi.pos_of_busy, fun m' hm' id =>
    ⟨hm'.abandons hi.tracked hi.metered, hi.count_eq_zero hm'⟩, hi.numbered.once,
    hi.numbered.length, h.requests, fun hn => ?_⟩
  obtain ⟨hcovered, htimely⟩ := hlib hn
  refine ⟨htimely.nodup, fun id hid => ?_, fun m' hm' id =>
    ⟨hm'.registered_of_ends hcovered, ⟨fun hd => ?_, ?_⟩, fun hr hgone => ?_⟩⟩
  · by_cases hr : m.Registered id
    · by_cases hd : id ∈ m.hand.due
      · exact .inr ⟨.inl ⟨hr, hd⟩, hi.over hcovered (.inl hd)⟩
      · exact .inl ⟨hr, hd, hi.exact hr hd⟩
    · exact .inr ⟨.inr ⟨hr, hi.ended_of_admitted hid hr⟩, hi.over hcovered (.inr hr)⟩
  · exact (hm'.ends_of_due hn hd).imp_left fun hd' =>
      ⟨hd', (hm'.timely hn hcovered htimely).registered id hd⟩
  · rintro (⟨hd, hr⟩ | hends)
    · exact (hm'.ending (hcovered.due id hd).2.2 (.inl hd)).resolve_right hr
    · exact (hm'.ends hends).2
  · by_contra hd
    exact hgone (hm'.registered hr fun he => hd (he ▸ List.mem_cons_self ..))

/-- A copy is counted until it ends. Then its task is cleaned up. -/
theorem Trace.tasks_accounted_landing :
    let calls : List Call :=
      [.copyAsync ⟨⟨1⟩, none, 0, [.host 0x5000 0x1000]⟩, .map ⟨1⟩ ⟨0x10000⟩ 0x10000]
    let m := (Bench.copying.perform Bench.hookless (.land ⟨0⟩)).moment
    Bench.hookless.CleansNothing ∧ Trace Bench.hookless calls Bench.copying ∧
      (∀ c ∈ calls, c.isCleanup → False) ∧ Moves Bench.hookless False Bench.copying.moment m ∧
      0 < Bench.copying.world.core.tasks.outstandingOf ⟨1⟩ ∧
      m.world.core.tasks.outstandingOf ⟨1⟩ = 0 ∧ ⟨1⟩ ∈ m.ended := by
  intro calls m
  have hp := Bench.cleansNothing_hookless
  have h : Trace Bench.hookless calls Bench.copying :=
    .call (.call (@start _ _ {} {} { memory := { ending := .manual } } _ rfl) _) _
  have hc : ∀ c ∈ calls, c.isCleanup → False := by decide
  have hm : Moves Bench.hookless False Bench.copying.moment m :=
    Bench.reach_copying.moves (.inr hp) (fun c hc hclean => hc hclean) nofun
  obtain ⟨-, hpos, -⟩ := tasks_accounted h (.inr hp) hc .refl
  have hbusy : Bench.copying.moment.Busy ⟨1⟩ :=
    .inl ⟨⟨⟨0⟩, ⟨1⟩, .memory, ⟨0x800000005000, ⟨0x4000000000⟩, 0x1000⟩⟩, by decide +kernel,
      rfl⟩
  obtain ⟨-, -, -, -, -, -, hlib⟩ := tasks_accounted h (.inr hp) hc hm
  obtain ⟨-, hover, -⟩ := hlib not_false
  have hgone : ¬m.Registered ⟨1⟩ := by
    have hnone : (m.world.core.tasks.table.find? ⟨1⟩).isNone := by decide +kernel
    exact not_not.2 (Option.isNone_iff_eq_none.1 hnone)
  refine ⟨hp, h, hc, hm, hpos _ hbusy, by decide +kernel, ?_⟩
  rcases hover ⟨1⟩ (by decide +kernel) with ⟨hr, -⟩ | ⟨⟨hr, -⟩ | ⟨-, hended⟩, -⟩
  · exact absurd hr hgone
  · exact absurd hr hgone
  · exact hended

end PeerDma
