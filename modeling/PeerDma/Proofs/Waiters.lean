import Mathlib.Data.List.Nodup
import PeerDma.Proofs.Moves

/-!
# Who waits for what

Waking a waiter takes its call out of the parked ones, then the call that this one displaced, and so
on (`rouse`). The teardown of a region stays outside these chains: it displaces nobody, and no call
displaces it. So it comes back only when its own waiter is woken.

* `rouse_perm`, `rouse_subperm`, `rouse_chain`, `rouse_left`: what a waking takes out, and leaves.
* `Named`: the waiters that something other than a draining region refers to.
* `Moment.Waiting`, `Move.waiting`: every waiter stands for one call, and the named ones for calls
  that tear nothing down.
-/

namespace PeerDma

/-! ## Rousing -/

/-- A call that has displaced nobody comes back alone. -/
theorem rouse_of_some {w : Waiter} {l : List Sleeper} {s : Sleeper}
    (h : l.find? (·.waiter = w) = some s) (hd : s.displaced = none) :
    rouse w l = ([s], without w l) := by
  rw [rouse]
  split
  · next h' => rw [h] at h'; cases h'
  · next s' h' =>
    obtain rfl : s = s' := Option.some.inj (h.symm.trans h')
    simp [hd]

theorem find?_waiter {l : List Sleeper} {s : Sleeper} (hn : (l.map Sleeper.waiter).Nodup)
    (hs : s ∈ l) : l.find? (·.waiter = s.waiter) = some s := by
  obtain ⟨s', hs'⟩ : ∃ s', l.find? (·.waiter = s.waiter) = some s' :=
    Option.isSome_iff_exists.1 (List.find?_isSome.2 ⟨s, hs, by simp⟩)
  have hw : s'.waiter = s.waiter := by simpa using List.find?_some hs'
  rw [hs', List.inj_on_of_nodup_map hn (List.mem_of_find?_eq_some hs') hs hw]

theorem without_perm {w : Waiter} {l : List Sleeper} {s : Sleeper}
    (hn : (l.map Sleeper.waiter).Nodup) (h : l.find? (·.waiter = w) = some s) :
    l.Perm (s :: without w l) := by
  obtain rfl : s.waiter = w := by simpa using List.find?_some h
  exact perm_cons_filter_ne hn (List.mem_of_find?_eq_some h)

/-- No call is lost. -/
theorem rouse_perm {w : Waiter} {l : List Sleeper} (hn : (l.map Sleeper.waiter).Nodup) :
    l.Perm ((rouse w l).1 ++ (rouse w l).2) := by
  fun_induction rouse w l with
  | case1 w l h => exact .refl _
  | case2 w l s h _ hd => exact without_perm hn h
  | case3 w l s h _ next hd more left hr ih =>
    have hperm := without_perm hn h
    have hn' : ((without w l).map Sleeper.waiter).Nodup :=
      (List.nodup_cons.1 ((hperm.map Sleeper.waiter).nodup_iff.1 hn)).2
    rw [hr] at ih
    exact hperm.trans ((ih hn').cons s)

/-- No call comes back twice. -/
theorem rouse_subperm (w : Waiter) (l : List Sleeper) :
    ((rouse w l).1 ++ (rouse w l).2).Subperm l := by
  have hfirst {w : Waiter} {l rest : List Sleeper} {s : Sleeper}
      (h : l.find? (·.waiter = w) = some s) (hrest : rest.Subperm (without w l)) :
      (s :: rest).Subperm l := by
    have hw : s.waiter = w := by simpa using List.find?_some h
    refine List.cons_subperm_of_not_mem_of_mem (fun hs => ?_) (List.mem_of_find?_eq_some h)
      (hrest.trans List.filter_sublist.subperm)
    have hne := (List.mem_filter.1 (hrest.subset hs)).2
    simp [hw] at hne
  fun_induction rouse w l with
  | case1 w l h => exact .refl _
  | case2 w l s h _ hd => exact hfirst h (.refl _)
  | case3 w l s h _ next hd more left hr ih =>
    rw [hr] at ih
    exact hfirst h ih

/-- What holds of every waiter along a chain of displaced ones says something about their calls. -/
theorem rouse_chain {w : Waiter} {l : List Sleeper} {C : Waiter → Prop} {P : Sleeper → Prop}
    (hC : ∀ s ∈ l, C s.waiter → P s ∧ ∀ d, s.displaced = some d → C d) (hw : C w) :
    ∀ s ∈ (rouse w l).1, P s := by
  fun_induction rouse w l with
  | case1 w l h => simp
  | case2 w l s h _ hd =>
    have hs : s.waiter = w := by simpa using List.find?_some h
    have hP := (hC s (List.mem_of_find?_eq_some h) (hs ▸ hw)).1
    simpa using hP
  | case3 w l s h _ next hd more left hr ih =>
    have hs : s.waiter = w := by simpa using List.find?_some h
    obtain ⟨hP, hnext⟩ := hC s (List.mem_of_find?_eq_some h) (hs ▸ hw)
    rw [hr] at ih
    have hmore := ih (fun s' hs' => hC s' (List.mem_of_mem_filter hs')) (hnext next hd)
    exact List.forall_mem_cons.2 ⟨hP, hmore⟩

/-- Nobody is left who was to be woken. -/
theorem rouse_left {w : Waiter} {l : List Sleeper} {s : Sleeper} (hs : s ∈ (rouse w l).2) :
    s.waiter ≠ w ∧ ∀ t ∈ (rouse w l).1, t.displaced ≠ some s.waiter := by
  fun_induction rouse w l with
  | case1 w l h => exact ⟨by simpa using List.find?_eq_none.1 h s hs, nofun⟩
  | case2 w l t h _ hd =>
    refine ⟨by simpa using (List.mem_filter.1 hs).2, fun t' ht' => ?_⟩
    obtain rfl := List.mem_singleton.1 ht'
    rw [hd]
    nofun
  | case3 w l t h _ next hd more left hr ih =>
    rw [hr] at ih
    obtain ⟨hne, hmore⟩ := ih hs
    have hmem : s ∈ without w l := by
      have hsubset := (rouse_subperm next (without w l)).subset
      rw [hr] at hsubset
      exact hsubset (List.mem_append_right _ hs)
    refine ⟨by simpa using (List.mem_filter.1 hmem).2, List.forall_mem_cons.2 ⟨?_, hmore⟩⟩
    rw [hd]
    exact fun he => hne (Option.some.inj he).symm

/-! ## Waiters in use -/

/-- The waiter whose call an event says has come back, and what the call reports. -/
def Event.back : Event → List (Waiter × Reply)
  | resumed waiter reply => [(waiter, reply)]
  | _ => []

/-- The waiters that calls at work, tasks and displaced calls refer to. -/
inductive Named (wakes : List Waiter) (tasks : Sharded TaskId Task) (sleepers : List Sleeper) :
    Waiter → Prop where
  | wake {w : Waiter} (h : w ∈ wakes) : Named wakes tasks sleepers w
  | slot {w : Waiter} {id : TaskId} {t : Task} (found : tasks.find? id = some t)
      (h : t.slot.occupant = some w) : Named wakes tasks sleepers w
  | displaced {w : Waiter} {s : Sleeper} (parked : s ∈ sleepers) (h : s.displaced = some w) :
      Named wakes tasks sleepers w

namespace Named

variable {wakes : List Waiter} {tasks : Sharded TaskId Task} {sleepers : List Sleeper} {w : Waiter}

theorem of_insert {id : TaskId} {task : Task} (h : Named wakes (tasks.insert id task) sleepers w) :
    Named wakes tasks sleepers w ∨ task.slot.occupant = some w := by
  cases h with
  | wake h => exact .inl (.wake h)
  | slot found h =>
    rw [Sharded.find?_insert] at found
    split at found
    · obtain rfl := Option.some.inj found
      exact .inr h
    · exact .inl (.slot found h)
  | displaced parked h => exact .inl (.displaced parked h)

theorem of_erase {id : TaskId} (h : Named wakes (tasks.erase id) sleepers w) :
    Named wakes tasks sleepers w := by
  cases h with
  | wake h => exact .wake h
  | slot found h =>
    rw [Sharded.find?_erase] at found
    split at found
    · cases found
    · exact .slot found h
  | displaced parked h => exact .displaced parked h

theorem of_park {s : Sleeper} (h : Named wakes tasks (sleepers ++ [s]) w) :
    Named wakes tasks sleepers w ∨ s.displaced = some w := by
  cases h with
  | wake h => exact .inl (.wake h)
  | slot found h => exact .inl (.slot found h)
  | displaced parked h =>
    rcases List.mem_append.1 parked with parked | hs
    · exact .inl (.displaced parked h)
    · obtain rfl := List.mem_singleton.1 hs
      exact .inr h

theorem of_wakes {more : List Waiter} (h : Named (more ++ wakes) tasks sleepers w) :
    Named wakes tasks sleepers w ∨ w ∈ more := by
  cases h with
  | wake h => exact (List.mem_append.1 h).elim .inr fun h => .inl (.wake h)
  | slot found h => exact .inl (.slot found h)
  | displaced parked h => exact .inl (.displaced parked h)

/-- Fewer calls in hand and fewer parked. -/
theorem mono {wakes' : List Waiter} {sleepers' : List Sleeper} (hwakes : wakes ⊆ wakes')
    (hsleepers : sleepers ⊆ sleepers') (h : Named wakes tasks sleepers w) :
    Named wakes' tasks sleepers' w := by
  cases h with
  | wake h => exact .wake (hwakes h)
  | slot found h => exact .slot found h
  | displaced parked h => exact .displaced (hsleepers parked) h

/-- A task comes into the table or changes there, and whoever is in its slot stays in it. -/
theorem insert {id : TaskId} {task : Task} (h : Named wakes tasks sleepers w)
    (hslot : ∀ t, tasks.find? id = some t → t.slot.occupant = some w →
      task.slot.occupant = some w) : Named wakes (tasks.insert id task) sleepers w := by
  cases h with
  | wake h => exact .wake h
  | @slot other t found h =>
    by_cases he : other = id
    · exact .slot ((Sharded.find?_insert ..).trans (if_pos rfl)) (hslot t (he ▸ found) h)
    · exact .slot ((Sharded.find?_insert ..).trans ((if_neg he).trans found)) h
  | displaced parked h => exact .displaced parked h

/-- A task leaves the table, and whoever is in its slot is to be woken. -/
theorem erase {id : TaskId} {task : Task} (h : Named wakes tasks sleepers w)
    (hf : tasks.find? id = some task) :
    Named (task.slot.occupant.toList ++ wakes) (tasks.erase id) sleepers w := by
  cases h with
  | wake h => exact .wake (List.mem_append_right _ h)
  | @slot other t found h =>
    by_cases he : other = id
    · obtain rfl : t = task := Option.some.inj (found.symm.trans (he ▸ hf))
      exact .wake (List.mem_append_left _ (Option.mem_toList.2 h))
    · exact .slot ((Sharded.find?_erase ..).trans ((if_neg he).trans found)) h
  | displaced parked h => exact .displaced parked h

/-- A waiter whose call is left when another one is woken is named all the same. -/
theorem unpark {s : Sleeper} (hn : (sleepers.map Sleeper.waiter).Nodup)
    (hs : s ∈ (rouse w sleepers).2) (h : Named (w :: wakes) tasks sleepers s.waiter) :
    Named wakes tasks (rouse w sleepers).2 s.waiter := by
  obtain ⟨hne, hdisplaced⟩ := rouse_left hs
  cases h with
  | wake h => exact .wake ((List.mem_cons.1 h).resolve_left hne)
  | slot found h => exact .slot found h
  | displaced parked h =>
    rcases List.mem_append.1 ((rouse_perm hn).mem_iff.1 parked) with hroused | hleft
    · exact absurd h (hdisplaced _ hroused)
    · exact .displaced hleft h

end Named

variable {ε : Type}

/-- Every waiter stands for one call. -/
structure Moment.Waiting (m : Moment ε) : Prop where
  nodup : ((m.hand.roused ++ m.world.core.parking.sleepers).map Sleeper.waiter).Nodup
  bound : ∀ s ∈ m.hand.roused ++ m.world.core.parking.sleepers,
    s.waiter.id < m.world.core.parking.next
  /-- Teardowns are woken by the last user of their region and by nobody else. -/
  named : ∀ w, Named m.hand.wakes m.world.core.tasks.table m.world.core.parking.sleepers w →
    w.id < m.world.core.parking.next ∧
      ∀ s ∈ m.world.core.parking.sleepers, s.waiter = w → s.rest.region? = none
  /-- Calls come back once. -/
  back : ∀ e ∈ m.world.record Event.back, e.1.id < m.world.core.parking.next ∧
    ∀ s ∈ m.hand.roused ++ m.world.core.parking.sleepers, s.waiter ≠ e.1

namespace Moment.Waiting

variable {w w' : World ε} {k : Hand}

/-- Fewer waiters are named. -/
theorem mono {m m' : Moment ε} (hi : m.Waiting)
    (hparking : m'.world.core.parking = m.world.core.parking) (hroused : m'.hand.roused = m.hand.roused)
    (hback : m'.world.record Event.back = m.world.record Event.back)
    (hnamed : ∀ x,
      Named m'.hand.wakes m'.world.core.tasks.table m'.world.core.parking.sleepers x →
        Named m.hand.wakes m.world.core.tasks.table m.world.core.parking.sleepers x) :
    m'.Waiting := by
  constructor <;> simp only [hparking, hroused, hback] at hnamed ⊢
  · exact hi.nodup
  · exact hi.bound
  · exact fun x hx => hi.named x (hnamed x hx)
  · exact hi.back

theorem nodup_sleepers (hi : Waiting ⟨w, k⟩) :
    (w.core.parking.sleepers.map Sleeper.waiter).Nodup := by
  have h := hi.nodup
  rw [List.map_append] at h
  exact h.of_append_right

/-- The calls that a waking takes out are in hand instead. -/
theorem unpark_perm (hi : Waiting ⟨w, k⟩) (waiter : Waiter) :
    (((rouse waiter w.core.parking.sleepers).1 ++ k.roused) ++
      (rouse waiter w.core.parking.sleepers).2).Perm (k.roused ++ w.core.parking.sleepers) := by
  refine (List.perm_append_comm.append_right _).trans ?_
  rw [List.append_assoc]
  exact (rouse_perm hi.nodup_sleepers).symm.append_left _

theorem mem_unpark (hi : Waiting ⟨w, k⟩) {waiter : Waiter} {s : Sleeper}
    (hs : s ∈ (rouse waiter w.core.parking.sleepers).2) : s ∈ w.core.parking.sleepers :=
  (rouse_perm hi.nodup_sleepers).mem_iff.2 (List.mem_append_right _ hs)

theorem unpark (hi : Waiting ⟨w, k⟩) (waiter : Waiter) :
    Waiting ⟨w.unpark waiter,
      { k with roused := (rouse waiter w.core.parking.sleepers).1 ++ k.roused }⟩ := by
  have hperm := hi.unpark_perm waiter
  refine ⟨(hperm.map _).nodup_iff.2 hi.nodup, fun s hs => hi.bound s (hperm.mem_iff.1 hs),
    fun x hx => ?_, fun x hx => ?_⟩
  · obtain ⟨hlt, htears⟩ := hi.named x (hx.mono (List.Subset.refl _) fun _ => hi.mem_unpark)
    exact ⟨hlt, fun s hs => htears s (hi.mem_unpark hs)⟩
  · obtain ⟨hlt, hne⟩ := hi.back x hx
    exact ⟨hlt, fun s hs => hne s (hperm.mem_iff.1 hs)⟩

/-- A call is parked under a new waiter. -/
theorem park (hi : Waiting ⟨w, k⟩) {s : Sleeper} (hw : s.waiter = w.core.parking.fresh.1)
    (hparking : w'.core.parking = w.core.parking.fresh.2.park s)
    (hback : w'.record Event.back = w.record Event.back)
    (hnamed : ∀ x, Named k.wakes w'.core.tasks.table (w.core.parking.sleepers ++ [s]) x →
      Named k.wakes w.core.tasks.table w.core.parking.sleepers x ∨
        x = s.waiter ∧ s.rest.region? = none) :
    Waiting ⟨w', k⟩ := by
  have hsleepers : w'.core.parking.sleepers = w.core.parking.sleepers ++ [s] := by
    rw [hparking]; rfl
  have hnext : w'.core.parking.next = w.core.parking.next + 1 := by rw [hparking]; rfl
  have hid : s.waiter.id = w.core.parking.next := by rw [hw]; rfl
  have hold : ∀ s' ∈ k.roused ++ w.core.parking.sleepers, s'.waiter.id < s.waiter.id := by
    intro s' hs'
    rw [hid]
    exact hi.bound s' hs'
  have hmem {s' : Sleeper} (hs' : s' ∈ k.roused ++ (w.core.parking.sleepers ++ [s])) :
      s' ∈ k.roused ++ w.core.parking.sleepers ∨ s' = s := by
    rw [← List.append_assoc] at hs'
    exact (List.mem_append.1 hs').imp_right List.mem_singleton.1
  constructor <;> dsimp only <;> simp only [hsleepers, hnext, hback]
  · rw [← List.append_assoc, List.map_append, List.nodup_append]
    refine ⟨hi.nodup, by simp, ?_⟩
    rintro x hx y hy rfl
    obtain ⟨s', hs', rfl⟩ := List.mem_map.1 hx
    have he : s'.waiter = s.waiter := by simpa using hy
    exact absurd (hold s' hs') (by rw [he]; exact Nat.lt_irrefl _)
  · intro s' hs'
    rcases hmem hs' with hs' | rfl
    · exact Nat.lt_succ_of_lt (hi.bound s' hs')
    · omega
  · intro x hx
    rcases hnamed x hx with hx | ⟨rfl, hrest⟩
    · obtain ⟨hlt, htears⟩ := hi.named x hx
      refine ⟨Nat.lt_succ_of_lt hlt, fun s' hs' he => ?_⟩
      rcases List.mem_append.1 hs' with hs' | hs'
      · exact htears s' hs' he
      · obtain rfl := List.mem_singleton.1 hs'
        rw [← he, hid] at hlt
        exact absurd hlt (Nat.lt_irrefl _)
    · refine ⟨by omega, fun s' hs' he => ?_⟩
      rcases List.mem_append.1 hs' with hs' | hs'
      · have := hold s' (List.mem_append_right _ hs')
        rw [he] at this
        exact absurd this (Nat.lt_irrefl _)
      · obtain rfl := List.mem_singleton.1 hs'
        exact hrest
  · intro x hx
    obtain ⟨hlt, hne⟩ := hi.back x hx
    refine ⟨Nat.lt_succ_of_lt hlt, fun s' hs' => ?_⟩
    rcases hmem hs' with hs' | rfl
    · exact hne s' hs'
    · intro he
      rw [← he, hid] at hlt
      exact Nat.lt_irrefl _ hlt

end Moment.Waiting

/-! ## Moves -/

theorem World.back_resume (p : Platform ε) (s : Sleeper) (w : World ε) :
    (w.resume p s).record Event.back = (s.waiter, s.rest.reply) :: w.record Event.back := by
  rw [resume_record]
  cases s.rest <;> rfl

variable {p : Platform ε} {stray : Prop} {m m' : Moment ε}

/-- Each move keeps the waiters in order, provided that nobody is in the slot of a registered
region. -/
theorem Move.waiting (h : Move p stray m m')
    (hslot : ∀ h u, m.world.core.mappings.table.find? h = some u → u.slot.occupant = none)
    (hi : m.Waiting) : m'.Waiting := by
  cases h with
  | log w k e he => exact { hi with back := (w.record_log Event.back he).symm ▸ hi.back }
  | putLast w k h waiter map found =>
    have hi' : Moment.Waiting ⟨w.setMappings map, k⟩ := { hi with }
    exact hi'.unpark waiter
  | wake w k waiter =>
    have hi' : Moment.Waiting ⟨w, k⟩ :=
      { hi with named := fun x hx => hi.named x (hx.mono (List.subset_cons_self _ _) fun _ => id) }
    exact hi'.unpark waiter
  | detach w k h use map cause found unused =>
    have hcore := (w.setMappings map).unpinRegion_core p use.region cause
    exact hi.mono ((congrArg Core.parking hcore).trans rfl) rfl
      ((w.setMappings map).unpinRegion_record p Event.back use.region cause)
      fun x hx => by dsimp only at hx; rw [hcore] at hx; exact hx
  | park w k h use map rest found used tears =>
    have hempty := hslot h use (Mappings.detach?_eq_some found).1
    refine hi.park (s := ⟨w.core.parking.fresh.1, use.slot.occupant, rest⟩) rfl rfl rfl ?_
    intro x hx
    rcases hx.of_park with hx | hx
    · exact .inl hx
    · rw [hempty] at hx
      cases hx
  | resume w k s =>
    have hparking := congrArg Core.parking (w.resume_core p s)
    have hback := w.back_resume p s
    have hnodup := List.nodup_cons.1 hi.nodup
    have hrest : ∀ s' ∈ k.roused ++ w.core.parking.sleepers, s'.waiter ≠ s.waiter := fun s' hs' he =>
      hnodup.1 (he ▸ List.mem_map_of_mem hs')
    constructor <;> dsimp only <;> simp only [hparking, hback]
    · exact hnodup.2
    · exact fun s' hs' => hi.bound s' (List.mem_cons_of_mem _ hs')
    · intro x hx
      rw [World.resume_core] at hx
      exact hi.named x hx
    · refine List.forall_mem_cons.2 ⟨⟨hi.bound s (List.mem_cons_self ..), hrest⟩, fun x hx => ?_⟩
      obtain ⟨hlt, hne⟩ := hi.back x hx
      exact ⟨hlt, fun s' hs' => hne s' (List.mem_cons_of_mem _ hs')⟩
  | install w k id rest displaced tasks found waits =>
    obtain ⟨task, hf, rfl, rfl⟩ := Tasks.install?_eq_some found
    refine hi.park (s := ⟨w.core.parking.fresh.1, task.slot.occupant, rest⟩) rfl rfl rfl ?_
    intro x hx
    rcases hx.of_park with hx | hx
    · rcases hx.of_insert with hx | hx
      · exact .inl hx
      · exact .inr ⟨(Option.some.inj hx).symm, waits⟩
    · exact .inl (.slot hf hx)
  | enroll w k h task use new nobody nothing found same =>
    refine hi.mono rfl rfl rfl fun x hx => ?_
    rcases hx.of_insert with hx | hx
    · exact hx
    · rw [nobody] at hx
      cases hx
  | remove w k id task tasks found =>
    obtain ⟨hf, rfl⟩ := Tasks.remove?_eq_some found
    refine hi.mono rfl rfl rfl fun x hx => ?_
    rcases hx.of_wakes with hx | hx
    · exact hx.of_erase
    · exact .slot hf (Option.mem_toList.1 hx)
  | release w k pins =>
    exact hi.mono rfl rfl (w.release_record p rfl pins) fun _ hx => hx
  | retain w k id r pins tasks found =>
    obtain ⟨task, hf, rfl⟩ := Tasks.retain?_eq_some found
    refine hi.mono rfl rfl rfl fun x hx => ?_
    rcases hx.of_insert with hx | hx
    · exact hx
    · exact .slot hf hx
  | endLaunch w k l =>
    refine hi.mono rfl rfl rfl fun x hx => ?_
    exact Tasks.table_finish w.core.tasks l.task ▸ hx
  | land w k token f flights found =>
    refine hi.mono rfl rfl rfl fun x hx => ?_
    exact Tasks.table_finish w.core.tasks f.task ▸ hx
  | _ => exact { hi with }

end PeerDma
