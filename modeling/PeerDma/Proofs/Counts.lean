import Mathlib.Data.Multiset.Count
import PeerDma.Proofs.Teardowns

/-!
# What counts count

The count of a region is the number of references to it: those in hand, callers' included, and one
for each registered task that targets it. And a region is listed exactly as long as its pin is, by
the record of what has passed to and from the surroundings, not handed back.

* `Mappings.Counted`, `Move.counted`: counts are exact, and tasks target regions that are listed.
* `Mappings.OnRecord`, `Move.onRecord`: pins on record and regions listed agree.
-/

namespace PeerDma

/-! ## References -/

/-- Tasks target regions that are listed, and counts are exact. -/
structure Mappings.Counted (m : Mappings) (refs : Multiset Handle) (t : Tasks) : Prop where
  ids : ∀ id task, t.table.find? id = some task → id.id < t.ids.next
  targets : ∀ id task, t.table.find? id = some task →
    ∃ u, m.use? task.holds.region.handle = some u ∧ u.region = task.holds.region
  refs : ∀ h, (m.use? h).elim 0 RegionUse.refs = refs.count h + t.onRegion h

theorem Tasks.onRegion_pos {t : Tasks} {id : TaskId} {task : Task}
    (hf : t.table.find? id = some task) : 0 < t.onRegion task.holds.region.handle := by
  have hperm := Sharded.toList_perm hf
  unfold onRegion
  rw [(hperm.map _).sum_nat, List.map_cons, List.sum_cons]
  exact Nat.add_pos_left (by simp [Task.on]) _

namespace Mappings.Counted

variable {m m' : Mappings} {refs refs' : Multiset Handle} {t t' : Tasks} {h : Handle}
  {u u' : RegionUse}

/-- The next id is new. -/
theorem find?_allocate (hi : m.Counted refs t) : t.table.find? t.allocate.1 = none := by
  by_contra hf
  obtain ⟨v, hv⟩ := Option.ne_none_iff_exists'.1 hf
  exact Nat.lt_irrefl _ (hi.ids _ v hv)

/-- The count of one region changes with the references to it. -/
theorem sets (hi : m.Counted refs t) (hs : Mappings.Sets m m' h (some u'))
    (hu : m.use? h = some u) (hregion : u'.region = u.region)
    (hh : u'.refs + refs.count h = u.refs + refs'.count h)
    (hother : ∀ other, other ≠ h → refs'.count other = refs.count other) : m'.Counted refs' t where
  ids := hi.ids
  targets id task hf := by
    obtain ⟨v, hv, hvr⟩ := hi.targets id task hf
    by_cases he : task.holds.region.handle = h
    · rw [he, hu] at hv
      obtain rfl := Option.some.inj hv
      exact ⟨u', he ▸ hs.self, hregion.trans hvr⟩
    · exact ⟨v, (hs.of_ne he).trans hv, hvr⟩
  refs other := by
    have hcount := hi.refs other
    by_cases he : other = h
    · rw [he, hu, Option.elim_some] at hcount
      rw [he, hs.self, Option.elim_some]
      omega
    · rw [hs.of_ne he, hcount, hother other he]

/-- A handle without references comes to name something else, or nothing. -/
theorem sets_unused {o : Option RegionUse} (hi : m.Counted refs t) (hs : Mappings.Sets m m' h o)
    (hu : (m.use? h).elim 0 RegionUse.refs = 0) (ho : o.elim 0 RegionUse.refs = 0) :
    m'.Counted refs t where
  ids := hi.ids
  targets id task hf := by
    have hne : task.holds.region.handle ≠ h := by
      intro he
      have hpos := Tasks.onRegion_pos hf
      have hcount := hi.refs h
      rw [he] at hpos
      omega
    rw [hs.of_ne hne]
    exact hi.targets id task hf
  refs other := by
    by_cases he : other = h
    · rw [he, hs.self, ho, ← hu]
      exact hi.refs h
    · rw [hs.of_ne he]
      exact hi.refs other

/-! ### What operations on regions keep -/

theorem acquire (hi : m.Counted refs t) (ha : m.acquire? h = some (u, m')) :
    m'.Counted (h ::ₘ refs) t := by
  obtain ⟨v, rfl, hr⟩ := Mappings.acquire?_replaces ha
  refine hi.sets hr.sets hr.use? rfl ?_ fun other hne => Multiset.count_cons_of_ne hne _
  rw [Multiset.count_cons_self]
  dsimp only
  omega

theorem put (hi : m.Counted (h ::ₘ refs) t) {woken : Option Waiter}
    (hp : m.put? h = some (woken, m')) : m'.Counted refs t := by
  obtain ⟨u, u', hput, hr⟩ := Mappings.put?_eq_some hp
  obtain ⟨hrefs, hregion, -⟩ := RegionUse.put?_eq_some hput
  refine hi.sets hr.sets hr.use? hregion ?_ fun other hne =>
    (Multiset.count_cons_of_ne hne _).symm
  rw [Multiset.count_cons_self]
  omega

/-- A reference in hand can be given back. -/
theorem put?_ne_none (hi : m.Counted (h ::ₘ refs) t) : m.put? h ≠ none := by
  intro hp
  have hcount := hi.refs h
  rw [Multiset.count_cons_self] at hcount
  cases hu : m.use? h with
  | none =>
    rw [hu, Option.elim_none] at hcount
    omega
  | some u =>
    rw [hu, Option.elim_some, Mappings.put?_eq_none hp u hu] at hcount
    omega

/-! ### What operations on tasks keep -/

theorem congr (hi : m.Counted refs t) (htable : t'.table = t.table) (hids : t'.ids = t.ids) :
    m.Counted refs t' where
  ids := by rw [htable, hids]; exact hi.ids
  targets := by rw [htable]; exact hi.targets
  refs h := by rw [Tasks.onRegion_congr htable]; exact hi.refs h

/-- One task changes, but not its region. -/
theorem insert (hi : m.Counted refs t) {id : TaskId} {task task' : Task}
    (hf : t.table.find? id = some task) (htable : t'.table = t.table.insert id task')
    (hids : t'.ids = t.ids) (hr : task'.holds.region = task.holds.region) :
    m.Counted refs t' where
  ids other v hv := by
    rw [htable, Sharded.find?_insert] at hv
    rw [hids]
    split at hv
    · next he => exact he ▸ hi.ids id task hf
    · exact hi.ids other v hv
  targets other v hv := by
    rw [htable, Sharded.find?_insert] at hv
    split at hv
    · obtain rfl := Option.some.inj hv
      rw [hr]
      exact hi.targets id task hf
    · exact hi.targets other v hv
  refs h := by rw [Tasks.onRegion_insert hf htable hr]; exact hi.refs h

/-- A new task gets a reference that was in hand. -/
theorem enroll {task : Task} (hi : m.Counted (task.holds.region.handle ::ₘ refs) t)
    (hnew : task.id = t.allocate.1) (hu : m.use? task.holds.region.handle = some u)
    (hregion : u.region = task.holds.region) : m.Counted refs (t.allocate.2.register task) := by
  have hid : task.id.id = t.ids.next := by rw [hnew]; rfl
  have hnone : t.table.find? task.id = none := hnew ▸ hi.find?_allocate
  constructor
  · intro id v hv
    replace hv : (t.table.insert task.id task).find? id = some v := hv
    show id.id < t.ids.next + 1
    rw [Sharded.find?_insert] at hv
    split at hv
    · next he => rw [he]; omega
    · exact Nat.lt_succ_of_lt (hi.ids id v hv)
  · intro id v hv
    replace hv : (t.table.insert task.id task).find? id = some v := hv
    rw [Sharded.find?_insert] at hv
    split at hv
    · obtain rfl := Option.some.inj hv
      exact ⟨u, hu, hregion⟩
    · exact hi.targets id v hv
  · intro h
    have hperm : (t.allocate.2.register task).table.toList.Perm
        ((task.id, task) :: t.table.toList) := Sharded.toList_insert_new task hnone
    rw [hi.refs h, Tasks.onRegion_of_perm hperm, Multiset.count_cons]
    simp only [Task.on, eq_comm]
    omega

/-- A task leaves its reference in hand. -/
theorem remove (hi : m.Counted refs t) {id : TaskId} {task : Task}
    (hr : t.remove? id = some (task, t')) :
    m.Counted (task.holds.region.handle ::ₘ refs) t' := by
  obtain ⟨hf, rfl⟩ := Tasks.remove?_eq_some hr
  have hsub {other : TaskId} {v : Task} (hv : (t.table.erase id).find? other = some v) :
      t.table.find? other = some v := by
    rw [Sharded.find?_erase] at hv
    split at hv
    · cases hv
    · exact hv
  refine ⟨fun other v hv => hi.ids other v (hsub hv), fun other v hv => hi.targets other v (hsub hv),
    fun h => ?_⟩
  have hperm : t.table.toList.Perm ((id, task) ::
      ({ t with table := t.table.erase id } : Tasks).table.toList) := Sharded.toList_perm hf
  rw [hi.refs h, Tasks.onRegion_of_perm hperm, Multiset.count_cons]
  simp only [Task.on, eq_comm]
  omega

end Mappings.Counted

/-! ## Pins -/

/-- The pin that an event says has been made. -/
def Event.pins : Event → List (Handle × GpuAddr × PageTable)
  | pinned handle base table => [(handle, base, table)]
  | _ => []

/-- The pin that an event says has been handed back. -/
def Event.unpins : Event → List Handle
  | unpinned handle _ _ _ => [handle]
  | _ => []

/-- Whether a handle stands for a pin, as that of a region or of a map in progress. -/
def Mappings.Owns (m : Mappings) (map : Option MapInHand) (h : Handle) (base : GpuAddr)
    (table : PageTable) : Prop :=
  (∃ u, m.use? h = some u ∧ u.region.base = base ∧ u.region.table = table) ∨
    map = some ⟨h, some (base, table)⟩

/-- The pins that are owned are those that have been made and not handed back, and a map that has no
pin yet has a handle that there is nothing about. -/
structure Mappings.OnRecord (m : Mappings) (map : Option MapInHand)
    (pins : List (Handle × GpuAddr × PageTable)) (unpins : List Handle) : Prop where
  owns_iff : ∀ h base table,
    m.Owns map h base table ↔ (h, base, table) ∈ pins ∧ h ∉ unpins
  fresh : ∀ h, map = some { handle := h } → (∀ pin, (h, pin) ∉ pins) ∧ h ∉ unpins
  bound : (∀ e ∈ pins, e.1.id < m.handles.next) ∧ ∀ h ∈ unpins, h.id < m.handles.next

namespace Mappings.OnRecord

variable {m m' : Mappings} {map : Option MapInHand} {pins : List (Handle × GpuAddr × PageTable)}
  {unpins : List Handle} {h : Handle} {u u' : RegionUse}

/-- The entry of a region changes, but not the region. -/
theorem sets (hi : m.OnRecord map pins unpins) (hs : Mappings.Sets m m' h (some u'))
    (hu : m.use? h = some u) (hregion : u'.region = u.region)
    (hnext : m'.handles.next = m.handles.next) : m'.OnRecord map pins unpins where
  owns_iff other base table := by
    rw [← hi.owns_iff]
    refine or_congr_left ?_
    by_cases he : other = h
    · rw [he, hs.self, hu]
      simp [hregion]
    · rw [hs.of_ne he]
  fresh := hi.fresh
  bound := by rw [hnext]; exact hi.bound

/-- A region is unpinned. -/
theorem unpin (hi : m.OnRecord map pins unpins) (hs : Mappings.Sets m m' h none)
    (hu : m.use? h = some u) (hmap : ∀ i, map = some i → m.use? i.handle = none)
    (hnext : m'.handles.next = m.handles.next) (hlt : h.id < m.handles.next) :
    m'.OnRecord map pins (h :: unpins) where
  owns_iff other base table := by
    have hold := hi.owns_iff other base table
    by_cases he : other = h
    · subst he
      simp only [List.mem_cons, true_or, not_true_eq_false, and_false, iff_false]
      rintro (⟨v, hv, -⟩ | hown)
      · cases hs.self.symm.trans hv
      · cases (hmap _ hown).symm.trans hu
    · rw [List.mem_cons, or_iff_right he, ← hold]
      refine or_congr_left ?_
      rw [hs.of_ne he]
  fresh other ho := by
    obtain ⟨hpins, hunpins⟩ := hi.fresh other ho
    refine ⟨hpins, ?_⟩
    rw [List.mem_cons, not_or]
    refine ⟨?_, hunpins⟩
    rintro rfl
    cases (hmap _ ho).symm.trans hu
  bound := by
    rw [hnext]
    exact ⟨hi.bound.1, List.forall_mem_cons.2 ⟨hlt, hi.bound.2⟩⟩

theorem begin (hi : m.OnRecord none pins unpins) :
    m.begin.2.OnRecord (some { handle := m.begin.1 }) pins unpins where
  owns_iff h base table := by
    rw [← hi.owns_iff]
    refine or_congr_right ?_
    simp
  fresh h he := by
    obtain rfl : m.begin.1 = h := congrArg MapInHand.handle (Option.some.inj he)
    exact ⟨fun pin hp => Nat.lt_irrefl _ (hi.bound.1 _ hp), fun hh => Nat.lt_irrefl _ (hi.bound.2 _ hh)⟩
  bound := ⟨fun e he => Nat.lt_succ_of_lt (hi.bound.1 e he),
    fun h hh => Nat.lt_succ_of_lt (hi.bound.2 h hh)⟩

theorem pin (hi : m.OnRecord (some { handle := h }) pins unpins) (hlt : h.id < m.handles.next)
    (base : GpuAddr) (table : PageTable) :
    m.OnRecord (some ⟨h, some (base, table)⟩) ((h, base, table) :: pins) unpins where
  owns_iff other b t := by
    have hold := hi.owns_iff other b t
    obtain ⟨hpins, hunpins⟩ := hi.fresh h rfl
    unfold Mappings.Owns at hold ⊢
    simp only [Option.some.injEq, MapInHand.mk.injEq, reduceCtorEq, and_false, or_false,
      List.mem_cons, Prod.mk.injEq] at hold ⊢
    rw [hold]
    constructor
    · rintro (⟨hp, hu⟩ | ⟨rfl, rfl, rfl⟩)
      · exact ⟨.inr hp, hu⟩
      · exact ⟨.inl ⟨rfl, rfl, rfl⟩, hunpins⟩
    · rintro ⟨⟨rfl, rfl, rfl⟩ | hp, hu⟩
      · exact .inr ⟨rfl, rfl, rfl⟩
      · exact .inl ⟨hp, hu⟩
  fresh other ho := by simp at ho
  bound := ⟨List.forall_mem_cons.2 ⟨hlt, hi.bound.1⟩, hi.bound.2⟩

theorem giveUp (hi : m.OnRecord (some { handle := h }) pins unpins) : m.OnRecord none pins unpins where
  owns_iff other base table := by
    rw [← hi.owns_iff]
    refine or_congr_right ?_
    simp
  fresh other ho := by cases ho
  bound := hi.bound

theorem rollBack {base : GpuAddr} {table : PageTable}
    (hi : m.OnRecord (some ⟨h, some (base, table)⟩) pins unpins) (hnone : m.use? h = none)
    (hlt : h.id < m.handles.next) : m.OnRecord none pins (h :: unpins) where
  owns_iff other b t := by
    have hold := hi.owns_iff other b t
    unfold Mappings.Owns at hold ⊢
    by_cases he : other = h
    · subst he
      simp [hnone]
    · rw [List.mem_cons, or_iff_right he, ← hold]
      simp [Ne.symm he]
  fresh other ho := by cases ho
  bound := ⟨hi.bound.1, List.forall_mem_cons.2 ⟨hlt, hi.bound.2⟩⟩

theorem register {r : Region} (hi : m.OnRecord (some ⟨r.handle, some (r.base, r.table)⟩) pins unpins)
    (hnone : m.use? r.handle = none) : (m.register r).OnRecord none pins unpins where
  owns_iff other b t := by
    rw [← hi.owns_iff]
    have hs := m.sets_register r
    unfold Mappings.Owns
    by_cases he : other = r.handle
    · subst he
      rw [hs.self, hnone]
      simp
    · rw [hs.of_ne he]
      simp [Ne.symm he]
  fresh other ho := by cases ho
  bound := hi.bound

end Mappings.OnRecord

/-! ## Moves -/

variable {ε : Type} {p : Platform ε} {stray : Prop} {m m' : Moment ε}

/-- The references in hand and those of tasks are what counts count. -/
def Moment.Counted (m : Moment ε) : Prop :=
  m.world.core.mappings.Counted m.hand.refs m.world.core.tasks

/-- The pins on record are those of regions and of the map in progress. -/
def Moment.OnRecord (m : Moment ε) : Prop :=
  m.world.core.mappings.OnRecord m.hand.map (m.world.record Event.pins)
    (m.world.record Event.unpins)

theorem Move.counted (h : Move p stray m m') (hk : m.Keyed) (ht : m.Tended) (hi : m.Counted) :
    m'.Counted := by
  obtain ⟨hk, hmap⟩ := hk
  cases h with
  | revoke w k h map found =>
    obtain ⟨pending, rfl⟩ := Mappings.revoke?_eq_some found
    exact { hi with }
  | register w k r =>
    have hnone : w.core.mappings.use? r.handle = none := (hmap _ rfl).2
    exact hi.sets_unused (w.core.mappings.sets_register r) (by rw [hnone]; rfl) rfl
  | acquire w k h use map found => exact Mappings.Counted.acquire hi found
  | put w k h map found => exact Mappings.Counted.put hi found
  | putLast w k h waiter map found => exact Mappings.Counted.put hi found
  | underflow w k h none => exact absurd none (Mappings.Counted.put?_ne_none hi)
  | detach w k h use map cause found unused =>
    have hf := (Mappings.detach?_eq_some found).1
    unfold Moment.Counted
    dsimp only
    rw [World.unpinRegion_core, (hk.registered h use hf).1]
    refine hi.sets_unused (Mappings.sets_detach found) ?_ rfl
    rw [Mappings.use?_registered hf]
    exact unused
  | park w k h use map rest found used tears =>
    have hf := (Mappings.detach?_eq_some found).1
    exact hi.sets (hk.sets_park found rfl) (Mappings.use?_registered hf) rfl rfl fun _ _ => rfl
  | resume w k s =>
    unfold Moment.Counted
    dsimp only
    rw [World.resume_core]
    cases hr : s.rest.region? with
    | none => rw [Rest.forget_of_none _ hr]; exact hi
    | some r =>
      obtain ⟨u, hu, -, hzero⟩ := ht.roused s (List.mem_cons_self ..) r hr
      refine hi.sets_unused (ht.sets_resume hk hr) ?_ rfl
      rw [hk.use?_draining hu]
      exact hzero
  | install w k id rest displaced tasks found waits =>
    obtain ⟨task, hf, rfl, rfl⟩ := Tasks.install?_eq_some found
    exact Mappings.Counted.insert hi hf rfl rfl rfl
  | enroll w k h task use new nobody nothing found same =>
    obtain rfl : task.holds.region.handle = h := same ▸ (hk.registered h use found).1
    exact Mappings.Counted.enroll hi new (Mappings.use?_registered found) same
  | remove w k id task tasks found => exact Mappings.Counted.remove hi found
  | retain w k id r pins tasks found =>
    obtain ⟨task, hf, rfl⟩ := Tasks.retain?_eq_some found
    exact Mappings.Counted.insert hi hf rfl rfl rfl
  | endLaunch w k l =>
    exact Mappings.Counted.congr hi (Tasks.table_finish _ _) (Tasks.ids_finish _ _)
  | land w k token f flights found =>
    exact Mappings.Counted.congr hi (Tasks.table_finish _ _) (Tasks.ids_finish _ _)
  | _ => exact { hi with }

theorem Move.onRecord (h : Move p stray m m') (hk : m.Keyed) (ht : m.Tended) (hi : m.OnRecord) :
    m'.OnRecord := by
  obtain ⟨hk, hmap⟩ := hk
  cases h with
  | log w k e he =>
    unfold Moment.OnRecord
    rw [World.record_log _ _ he, World.record_log _ _ he]
    exact hi
  | beginMap w k => exact Mappings.OnRecord.begin hi
  | pinned w k h base table => exact Mappings.OnRecord.pin hi (hmap _ rfl).1 base table
  | revoke w k h map found =>
    obtain ⟨pending, rfl⟩ := Mappings.revoke?_eq_some found
    exact { hi with }
  | giveUp w k h => exact Mappings.OnRecord.giveUp hi
  | rollBack w k h base table cause =>
    exact Mappings.OnRecord.rollBack hi (hmap _ rfl).2 (hmap _ rfl).1
  | register w k r =>
    have hr := Mappings.OnRecord.register hi (hmap _ rfl).2
    exact { hr with }
  | acquire w k h use map found =>
    obtain ⟨u, rfl, hr⟩ := Mappings.acquire?_replaces found
    exact Mappings.OnRecord.sets hi hr.sets hr.use? rfl hr.handles
  | put w k h map found =>
    obtain ⟨u, u', hput, hr⟩ := Mappings.put?_eq_some found
    exact Mappings.OnRecord.sets hi hr.sets hr.use? (RegionUse.put?_eq_some hput).2.1 hr.handles
  | putLast w k h waiter map found =>
    obtain ⟨u, u', hput, hr⟩ := Mappings.put?_eq_some found
    exact Mappings.OnRecord.sets hi hr.sets hr.use? (RegionUse.put?_eq_some hput).2.1 hr.handles
  | detach w k h use map cause found unused =>
    obtain ⟨hf, hm⟩ := Mappings.detach?_eq_some found
    obtain ⟨hh, hlt⟩ := hk.registered h use hf
    have hnext : (map.forget h).handles.next = w.core.mappings.handles.next := by rw [hm]; rfl
    unfold Moment.OnRecord
    dsimp only
    rw [World.unpinRegion_core, World.unpinRegion_record, World.unpinRegion_record, hh]
    exact Mappings.OnRecord.unpin hi (Mappings.sets_detach found) (Mappings.use?_registered hf)
      (fun i he => (hmap i he).2) hnext hlt
  | park w k h use map rest found used tears =>
    obtain ⟨hf, hm⟩ := Mappings.detach?_eq_some found
    have hnext : map.handles.next = w.core.mappings.handles.next := by rw [hm]
    exact Mappings.OnRecord.sets hi (hk.sets_park found rfl) (Mappings.use?_registered hf) rfl hnext
  | resume w k s =>
    unfold Moment.OnRecord
    dsimp only
    rw [World.resume_core, World.resume_record, World.resume_record]
    cases hr : s.rest.region? with
    | none =>
      rw [Rest.forget_of_none _ hr, Rest.unpinned?_of_none hr]
      exact hi
    | some r =>
      obtain ⟨cause, he⟩ := Rest.unpinned?_of_some hr
      obtain ⟨u, hu, -, -⟩ := ht.roused s (List.mem_cons_self ..) r hr
      rw [he]
      exact Mappings.OnRecord.unpin hi (ht.sets_resume hk hr) (hk.use?_draining hu)
        (fun i he => (hmap i he).2) (by rw [Rest.handles_forget]) (hk.draining _ u hu).1.2
  | release w k pins =>
    unfold Moment.OnRecord
    dsimp only
    rw [World.release_record p rfl, World.release_record p rfl]
    exact hi
  | _ => exact { hi with }

end PeerDma
