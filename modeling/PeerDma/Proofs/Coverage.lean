import PeerDma.Proofs.Counts

/-!
# What submissions in flight rely on

A submission in flight reads and writes memory that its task holds, so the task has to stay
registered until the submission has ended. It does, if tasks are cleaned up only when due: the count
of a task is at least the number of its submissions in flight, plus one while it is launched, and
its cleanup falls due when the count drops to zero.

* `Tasks.Covers`: what submissions, launches and due cleanups rely on.
* `Move.covered`: each move keeps it, unless it cleans a task up by hand.
-/

namespace PeerDma

theorem Extent.ReadsFrom.mono {pageSize : Nat} {pages more : List HostPage} {e : Extent}
    (h : e.ReadsFrom pageSize pages) (hsub : pages ⊆ more) : e.ReadsFrom pageSize more := by
  intro hc k hk
  obtain ⟨page, hpage, hcovers⟩ := h hc k hk
  exact ⟨page, hsub hpage, hcovers⟩

/-- What a launch adds to the count of a task. -/
def launchBias (launch : Option LaunchInHand) (id : TaskId) : Nat :=
  if launch.any (·.task = id) then 1 else 0

theorem launchBias_none (id : TaskId) : launchBias none id = 0 := rfl

theorem launchBias_self (l : LaunchInHand) : launchBias (some l) l.task = 1 := by
  simp [launchBias]

theorem launchBias_of_ne {l : LaunchInHand} {id : TaskId} (h : l.task ≠ id) :
    launchBias (some l) id = 0 := by
  simp [launchBias, h]

namespace Tasks

/-- Every task stays registered, with the same region and at least the same pages. -/
def Extends (t t' : Tasks) : Prop :=
  ∀ id task, t.table.find? id = some task → ∃ task', t'.table.find? id = some task' ∧
    task'.holds.region = task.holds.region ∧ task.pages ⊆ task'.pages

theorem extends_insert {t t' : Tasks} {id : TaskId} {task task' : Task}
    (hf : t.table.find? id = some task) (htable : t'.table = t.table.insert id task')
    (hr : task'.holds.region = task.holds.region) (hp : task.pages ⊆ task'.pages) :
    Extends t t' := by
  intro other v hv
  rw [htable, Sharded.find?_insert]
  split
  · next he =>
    obtain rfl : task = v := Option.some.inj (hf.symm.trans (he ▸ hv))
    exact ⟨task', rfl, hr, hp⟩
  · exact ⟨v, hv, rfl, List.Subset.refl _⟩

/-- What submissions in flight, tasks to be cleaned up and a launch rely on. -/
structure Covers (t : Tasks) (pageSize : Nat) (fs : Flights) (todo : List TaskId)
    (l : Option LaunchInHand) : Prop where
  flights : ∀ f ∈ fs.flights, ∃ task, t.table.find? f.task = some task ∧
    f.request.InPage task.holds.region ∧ f.extent.ReadsFrom pageSize task.pages
  counted : ∀ id, (fs.ofTask id).length + launchBias l id ≤ t.outstandingOf id
  due : ∀ id ∈ todo, fs.ofTask id = [] ∧ launchBias l id = 0 ∧ id.id < t.ids.next
  launch : ∀ i, l = some i → ∃ task, t.table.find? i.task = some task ∧
    task.holds.region = i.region ∧ (∀ pages, i.pages = some pages → pages ⊆ task.pages) ∧
    (i.pages = none → fs.ofTask i.task = [])

namespace Covers

variable {t t' : Tasks} {pageSize : Nat} {fs fs' : Flights} {todo : List TaskId}
  {l : Option LaunchInHand} {i : LaunchInHand} {id : TaskId} {task : Task}

/-- Tasks get more pages, or change in what nobody relies on. -/
theorem mono (hi : t.Covers pageSize fs todo l) (hx : Extends t t')
    (hout : ∀ id, t.outstandingOf id ≤ t'.outstandingOf id) (hids : t.ids.next ≤ t'.ids.next) :
    t'.Covers pageSize fs todo l where
  flights f hf := by
    obtain ⟨task, ht, hin, hback⟩ := hi.flights f hf
    obtain ⟨task', ht', hr, hp⟩ := hx _ task ht
    exact ⟨task', ht', hr ▸ hin, hback.mono hp⟩
  counted id := (hi.counted id).trans (hout id)
  due id hid := by
    obtain ⟨hnone, hbias, hlt⟩ := hi.due id hid
    exact ⟨hnone, hbias, Nat.lt_of_lt_of_le hlt hids⟩
  launch i hl := by
    obtain ⟨task, ht, hregion, hpages, hnone⟩ := hi.launch i hl
    obtain ⟨task', ht', hr, hp⟩ := hx _ task ht
    exact ⟨task', ht', hr.trans hregion, fun pages he => List.Subset.trans (hpages pages he) hp,
      hnone⟩

/-- A submission of the task that is being launched. -/
theorem offer {r : Region} {pages : List HostPage} {f : Flight}
    (hi : t.Covers pageSize fs todo (some ⟨f.task, r, some pages⟩)) (hin : f.request.InPage r)
    (hback : f.extent.ReadsFrom pageSize pages) (next : Nat) :
    (t.begin f.task).Covers pageSize ⟨next, f :: fs.flights⟩ todo
      (some ⟨f.task, r, some pages⟩) := by
  obtain ⟨task, ht, hregion, hpages, -⟩ := hi.launch _ rfl
  refine ⟨List.forall_mem_cons.2 ⟨⟨task, ht, hregion ▸ hin, hback.mono (hpages pages rfl)⟩,
    hi.flights⟩, fun id => ?_, fun id hid => ?_, fun i hl => ?_⟩
  · have hcount := hi.counted id
    rw [Flights.ofTask_cons, outstandingOf_begin]
    split
    · next he =>
      rw [he] at hcount ⊢
      rw [List.length_cons]
      omega
    · exact hcount
  · obtain ⟨hnone, hbias, hlt⟩ := hi.due id hid
    have hne : id ≠ f.task := by
      rintro rfl
      exact absurd hbias ((launchBias_self ⟨f.task, r, some pages⟩).trans_ne Nat.one_ne_zero)
    rw [Flights.ofTask_cons, if_neg hne]
    exact ⟨hnone, hbias, hlt⟩
  · obtain rfl := Option.some.inj hl
    exact ⟨task, ht, hregion, hpages, nofun⟩

/-- The end of a submission. -/
theorem land (hi : t.Covers pageSize fs todo l)
    (hids : ∀ id task, t.table.find? id = some task → id.id < t.ids.next) {token : Token}
    {f : Flight} (hland : fs.land? token = some (f, fs')) :
    (t.finish f.task).2.Covers pageSize fs' (t.dueAfter f.task ++ todo) l := by
  obtain ⟨hmem, -, hfs⟩ := Flights.land?_eq_some hland
  have hsub {f' : Flight} (hf' : f' ∈ fs'.flights) : f' ∈ fs.flights := by
    rw [hfs] at hf'
    exact List.mem_of_mem_filter hf'
  have hle (id : TaskId) : (fs'.ofTask id).length ≤ (fs.ofTask id).length := by
    rw [Flights.ofTask_land hland]
    exact List.length_filter_le ..
  have hlt := Flights.length_ofTask_land_lt hland
  have hnil {id : TaskId} (h : fs.ofTask id = []) : fs'.ofTask id = [] := by
    rw [Flights.ofTask_land hland, h]
    rfl
  refine ⟨fun f' hf' => by rw [table_finish]; exact hi.flights f' (hsub hf'), fun id => ?_,
    fun id hid => ?_, fun i hl => ?_⟩
  · have hcount := hi.counted id
    have := hle id
    rw [outstandingOf_finish]
    split
    · next he =>
      rw [he] at hcount ⊢
      omega
    · omega
  · rw [ids_finish]
    rcases List.mem_append.1 hid with hid | hid
    · -- The last submission, and the launch is over.
      unfold dueAfter at hid
      split at hid
      · next hlast =>
        obtain rfl := List.mem_singleton.1 hid
        have hcount := hi.counted f.task
        rw [(finish_fst_iff t f.task).1 hlast] at hcount
        obtain ⟨task, ht, -⟩ := hi.flights f hmem
        exact ⟨List.length_eq_zero_iff.1 (by omega), by omega, hids _ task ht⟩
      · cases hid
    · obtain ⟨hnone, hbias, hnext⟩ := hi.due id hid
      exact ⟨hnil hnone, hbias, hnext⟩
  · obtain ⟨task, ht, hregion, hpages, hnone⟩ := hi.launch i hl
    rw [table_finish]
    exact ⟨task, ht, hregion, hpages, fun he => hnil (hnone he)⟩

/-- The end of a launch. -/
theorem endLaunch (hi : t.Covers pageSize fs todo (some i))
    (hids : ∀ id task, t.table.find? id = some task → id.id < t.ids.next) :
    (t.finish i.task).2.Covers pageSize fs (t.dueAfter i.task ++ todo) none := by
  obtain ⟨task, ht, -⟩ := hi.launch i rfl
  refine ⟨by rw [table_finish]; exact hi.flights, fun id => ?_, fun id hid => ?_, nofun⟩
  · have hcount := hi.counted id
    rw [outstandingOf_finish, launchBias_none]
    split
    · next he =>
      rw [he, launchBias_self] at hcount
      rw [he]
      omega
    · omega
  · rw [ids_finish, launchBias_none]
    rcases List.mem_append.1 hid with hid | hid
    · unfold dueAfter at hid
      split at hid
      · next hlast =>
        obtain rfl := List.mem_singleton.1 hid
        have hcount := hi.counted i.task
        rw [(finish_fst_iff t i.task).1 hlast, launchBias_self] at hcount
        exact ⟨List.length_eq_zero_iff.1 (by omega), rfl, hids _ task ht⟩
      · cases hid
    · obtain ⟨hnone, -, hnext⟩ := hi.due id hid
      exact ⟨hnone, rfl, hnext⟩

/-- A launch that is given up before its first submission. -/
theorem abandon {r : Region} (hi : t.Covers pageSize fs todo (some { task := id, region := r }))
    (hids : ∀ id task, t.table.find? id = some task → id.id < t.ids.next) :
    t.Covers pageSize fs (id :: todo) none := by
  obtain ⟨task, ht, -, -, hnone⟩ := hi.launch _ rfl
  refine ⟨hi.flights, fun other => ?_, List.forall_mem_cons.2 ⟨⟨hnone rfl, rfl, hids _ task ht⟩,
    fun other ho => ?_⟩, nofun⟩
  · exact Nat.le_trans (Nat.le_add_right ..) (hi.counted other)
  · obtain ⟨hnone, -, hnext⟩ := hi.due other ho
    exact ⟨hnone, rfl, hnext⟩

/-- The cleanup of a task that is due. -/
theorem remove (hi : t.Covers pageSize fs (id :: todo) l) (hr : t.remove? id = some (task, t')) :
    t'.Covers pageSize fs todo l := by
  obtain ⟨-, rfl⟩ := remove?_eq_some hr
  obtain ⟨⟨hnone, hbias, -⟩, hdue⟩ := List.forall_mem_cons.1 hi.due
  have hkeep {other : TaskId} {v : Task} (hne : other ≠ id) (hv : t.table.find? other = some v) :
      (t.table.erase id).find? other = some v := by
    rw [Sharded.find?_erase, if_neg hne, hv]
  refine ⟨fun f hf => ?_, hi.counted, hdue, fun i hl => ?_⟩
  · obtain ⟨v, hv, hrest⟩ := hi.flights f hf
    refine ⟨v, hkeep ?_ hv, hrest⟩
    rintro rfl
    have hmem := Flights.mem_ofTask.2 ⟨hf, rfl⟩
    rw [hnone] at hmem
    cases hmem
  · obtain ⟨v, hv, hrest⟩ := hi.launch i hl
    refine ⟨v, hkeep ?_ hv, hrest⟩
    rintro rfl
    rw [hl, launchBias_self] at hbias
    cases hbias

/-- A new task, which is launched. -/
theorem enroll (hi : t.Covers pageSize fs todo none)
    (hids : ∀ id task, t.table.find? id = some task → id.id < t.ids.next)
    (hnew : task.id = t.allocate.1) :
    (t.allocate.2.register task).Covers pageSize fs todo
      (some { task := task.id, region := task.holds.region }) := by
  have hid : task.id.id = t.ids.next := by rw [hnew]; rfl
  have hne {other : TaskId} (hlt : other.id < t.ids.next) : other ≠ task.id := by
    rintro rfl
    omega
  have hfind {other : TaskId} {v : Task} (hv : t.table.find? other = some v) :
      (t.table.insert task.id task).find? other = some v := by
    rw [Sharded.find?_insert, if_neg (hne (hids other v hv)), hv]
  have hnone : fs.ofTask task.id = [] := by
    refine List.filter_eq_nil_iff.2 fun f hf he => ?_
    obtain ⟨v, hv, -⟩ := hi.flights f hf
    exact hne (hids _ v hv) (by simpa using he)
  refine ⟨fun f hf => ?_, fun id => ?_, fun id hid' => ?_, fun i hl => ?_⟩
  · obtain ⟨v, hv, hrest⟩ := hi.flights f hf
    exact ⟨v, hfind hv, hrest⟩
  · rw [outstandingOf_register]
    split
    · next he =>
      rw [he, hnone, List.length_nil, Nat.zero_add]
      exact Nat.le_of_eq (launchBias_self _)
    · next he =>
      rw [launchBias_of_ne (Ne.symm he)]
      exact hi.counted id
  · obtain ⟨hnil, -, hlt⟩ := hi.due id hid'
    exact ⟨hnil, launchBias_of_ne (hne hlt).symm, Nat.lt_succ_of_lt hlt⟩
  · obtain rfl := Option.some.inj hl
    exact ⟨task, (Sharded.find?_insert ..).trans (if_pos rfl), rfl, nofun, fun _ => hnone⟩

/-- The task that is being launched gets its pages. -/
theorem retain {r : Region} {pins : List PinSet}
    (hi : t.Covers pageSize fs todo (some { task := id, region := r }))
    (hr : t.retain? id pins = some t') :
    t'.Covers pageSize fs todo (some ⟨id, r, some (pins.flatMap PinSet.pages)⟩) := by
  obtain ⟨task, hf, rfl⟩ := retain?_eq_some hr
  have hpages : Task.pages { task with holds := { task.holds with
      pins := task.holds.pins ++ pins } } = task.pages ++ pins.flatMap PinSet.pages :=
    List.flatMap_append
  have hx : Extends t { t with table := t.table.insert id { task with holds := { task.holds with
      pins := task.holds.pins ++ pins } } } :=
    extends_insert hf rfl rfl (hpages ▸ List.subset_append_left ..)
  have hnew := hi.mono hx (fun _ => Nat.le_refl _) (Nat.le_refl _)
  refine { hnew with launch := fun i hl => ?_ }
  obtain rfl := Option.some.inj hl
  obtain ⟨v, hv, hregion, -⟩ := hi.launch _ rfl
  obtain rfl : task = v := Option.some.inj (hf.symm.trans hv)
  refine ⟨_, (Sharded.find?_insert ..).trans (if_pos rfl), hregion, fun pages he => ?_, nofun⟩
  obtain rfl := Option.some.inj he
  rw [hpages]
  exact List.subset_append_right ..

end Covers

end Tasks

/-! ## Moves -/

variable {ε : Type} {p : Platform ε} {stray : Prop} {m m' : Moment ε}

/-- What submissions in flight rely on is there. -/
def Moment.Covered (m : Moment ε) : Prop :=
  m.world.core.tasks.Covers m.world.core.config.hostPageSize m.world.core.flights m.hand.due
    m.hand.launch

theorem Move.covered (h : Move p stray m m') (hs : ¬stray) (hc : m.Counted) (hi : m.Covered) :
    m'.Covered := by
  have hids := hc.ids
  cases h with
  | stray w k id allowed => exact absurd allowed hs
  | detach w k h use map cause found unused =>
    unfold Moment.Covered
    dsimp only
    rw [World.unpinRegion_core]
    exact hi
  | resume w k s =>
    unfold Moment.Covered
    dsimp only
    rw [World.resume_core]
    exact hi
  | install w k id rest displaced tasks found waits =>
    obtain ⟨task, hf, rfl, rfl⟩ := Tasks.install?_eq_some found
    exact Tasks.Covers.mono hi (Tasks.extends_insert hf rfl rfl (List.Subset.refl _))
      (fun _ => Nat.le_refl _) (Nat.le_refl _)
  | enroll w k h task use new nobody nothing found same => exact Tasks.Covers.enroll hi hids new
  | remove w k id task tasks found => exact Tasks.Covers.remove hi found
  | unknown w k id none => exact { hi with due := fun other ho => hi.due other (.tail _ ho) }
  | retain w k id r pins tasks found => exact Tasks.Covers.retain hi found
  | retainGone w k id r pages none =>
    obtain ⟨task, hf, -⟩ := hi.launch _ rfl
    cases none.symm.trans hf
  | endLaunch w k l => exact Tasks.Covers.endLaunch hi hids
  | abandon w k id r => exact Tasks.Covers.abandon hi hids
  | offer w k id r pages run inside backed =>
    exact Tasks.Covers.offer (f := w.nextFlight id run) hi inside backed _
  | land w k token f flights found => exact Tasks.Covers.land hi hids found
  | _ => exact { hi with }

end PeerDma
