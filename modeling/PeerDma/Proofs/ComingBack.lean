import Mathlib.Logic.Function.Basic
import PeerDma.Proofs.Retirement

/-!
# Calls that wait for a task

The slot of a task has room for one waiter. A call that parks displaces the one in the slot and wakes
him once it has been woken itself, so that the cleanup of the task wakes all that have ever waited
for it, along a chain of displaced waiters. Nobody on the chain is woken before, since the chains of
different tasks and the teardowns of regions stay apart.

* `Moment.Assigned`: which task each waiter waits for. `Move.assigned`: each move keeps to it.
* `Moment.Awaiting`, `Move.awaiting`: a call that waits for a task, from now on.
* `System.Waits`: the calls that park on a task.
* `Reach.waits_end`: what waits for a task comes back with its cleanup, and not before.
-/

namespace PeerDma

variable {ε : Type} {p : Platform ε} {stray : Prop} {m m' : Moment ε} {id : TaskId}

/-! ## Who waits for which task -/

/-- The waiters that are about to be woken, have been roused, or have come back. -/
def Moment.woken (m : Moment ε) : List Waiter :=
  m.hand.wakes ++ (m.hand.roused.map Sleeper.waiter ++ (m.world.record Event.back).map Prod.fst)

/-- Each waiter waits for one task, and those who tear a region down for none. Whoever is displaced
has waited for the task of the call that displaces him, and nobody is woken before his task is out of
the table. -/
structure Moment.Assigned (on : Waiter → Option TaskId) (m : Moment ε) : Prop where
  bound : ∀ w id, on w = some id →
    w.id < m.world.core.parking.next ∧ id.id < m.world.core.tasks.ids.next
  slot : ∀ id task w, m.world.core.tasks.table.find? id = some task →
    task.slot.occupant = some w → on w = some id
  displaced : ∀ s ∈ m.world.core.parking.sleepers, ∀ w, s.displaced = some w → on w = on s.waiter
  torn : ∀ s ∈ m.world.core.parking.sleepers, s.rest.region? ≠ none → on s.waiter = none
  settled : ∀ w ∈ m.woken, ∀ id, on w = some id → m.world.core.tasks.table.find? id = none

namespace Moment.Assigned

variable {on : Waiter → Option TaskId} {w w' : World ε} {k k' : Hand}

/-- The same calls are parked, tasks keep their waiters, and whoever is woken has no task any more. -/
theorem mono (hi : Assigned on ⟨w, k⟩) (hparking : w'.core.parking = w.core.parking)
    (hids : w.core.tasks.ids.next ≤ w'.core.tasks.ids.next)
    (hslot : ∀ id task x, w'.core.tasks.table.find? id = some task → task.slot.occupant = some x →
      on x = some id)
    (hnone : ∀ id, id.id < w.core.tasks.ids.next → w.core.tasks.table.find? id = none →
      w'.core.tasks.table.find? id = none)
    (hwoken : ∀ x ∈ woken ⟨w', k'⟩, x ∈ woken ⟨w, k⟩ ∨
      ∀ id, on x = some id → w'.core.tasks.table.find? id = none) : Assigned on ⟨w', k'⟩ := by
  constructor <;> dsimp only <;> try rw [hparking]
  · exact fun x id hx => (hi.bound x id hx).imp_right fun hlt => Nat.lt_of_lt_of_le hlt hids
  · exact hslot
  · exact hi.displaced
  · exact hi.torn
  · intro x hx id hon
    rcases hwoken x hx with hx | hx
    · exact hnone id (hi.bound x id hon).2 (hi.settled x hx id hon)
    · exact hx id hon

/-- The same calls are parked, the same tasks are registered, and nobody else is woken. -/
theorem congr (hi : Assigned on ⟨w, k⟩) (hparking : w'.core.parking = w.core.parking)
    (htasks : w'.core.tasks = w.core.tasks) (hwoken : woken ⟨w', k'⟩ ⊆ woken ⟨w, k⟩) :
    Assigned on ⟨w', k'⟩ := by
  refine hi.mono hparking ?_ ?_ ?_ fun x hx => .inl (hwoken hx) <;> rw [htasks]
  · exact hi.slot
  · exact fun _ _ hn => hn

/-- The calls along the chain of a waiter whose task is out of the table are roused. -/
theorem unpark (hi : Assigned on ⟨w, k⟩) (waiter : Waiter)
    (hover : ∀ id, on waiter = some id → w.core.tasks.table.find? id = none) :
    Assigned on ⟨w.unpark waiter,
      { k with roused := (rouse waiter w.core.parking.sleepers).1 ++ k.roused }⟩ := by
  have hleft {s : Sleeper} (hs : s ∈ (rouse waiter w.core.parking.sleepers).2) :
      s ∈ w.core.parking.sleepers :=
    (rouse_subperm waiter w.core.parking.sleepers).subset (List.mem_append_right _ hs)
  have hchain : ∀ s ∈ (rouse waiter w.core.parking.sleepers).1, on s.waiter = on waiter :=
    rouse_chain (C := fun x => on x = on waiter)
      (fun s hs hc => ⟨hc, fun d hd => (hi.displaced s hs d hd).trans hc⟩) rfl
  refine ⟨hi.bound, hi.slot, fun s hs => hi.displaced s (hleft hs), fun s hs => hi.torn s (hleft hs),
    fun x hx id hon => ?_⟩
  rcases List.mem_append.1 hx with hwake | hx
  · exact hi.settled x (List.mem_append_left _ hwake) id hon
  rw [List.map_append, List.append_assoc] at hx
  rcases List.mem_append.1 hx with hroused | hx
  · obtain ⟨s, hs, rfl⟩ := List.mem_map.1 hroused
    exact hover id ((hchain s hs).symm.trans hon)
  · exact hi.settled x (List.mem_append_right _ hx) id hon

/-- A call is parked under a new waiter, to wait for a task or for none. -/
theorem park (hi : Assigned on ⟨w, k⟩) (hw : Waiting ⟨w, k⟩) {s : Sleeper} {o : Option TaskId}
    (hs : s.waiter = w.core.parking.fresh.1) (hparking : w'.core.parking = w.core.parking.fresh.2.park s)
    (hids : w'.core.tasks.ids = w.core.tasks.ids)
    (hback : w'.record Event.back = w.record Event.back)
    (ho : ∀ id, o = some id → id.id < w.core.tasks.ids.next)
    (hslot : ∀ id task x, w'.core.tasks.table.find? id = some task → task.slot.occupant = some x →
      x = s.waiter ∧ o = some id ∨ on x = some id)
    (hdisplaced : ∀ x, s.displaced = some x → x.id < s.waiter.id ∧ on x = o)
    (htorn : s.rest.region? ≠ none → o = none)
    (hnone : ∀ id, w.core.tasks.table.find? id = none → w'.core.tasks.table.find? id = none) :
    Assigned (Function.update on s.waiter o) ⟨w', k⟩ := by
  have hid : s.waiter.id = w.core.parking.next := by rw [hs]; rfl
  have hnext : w'.core.parking.next = w.core.parking.next + 1 := by rw [hparking]; rfl
  have hsleepers : w'.core.parking.sleepers = w.core.parking.sleepers ++ [s] := by rw [hparking]; rfl
  have hold {x : Waiter} (hx : x.id < w.core.parking.next) : Function.update on s.waiter o x = on x :=
    Function.update_of_ne (fun he => by rw [he, hid] at hx; exact Nat.lt_irrefl _ hx) ..
  have hparked {t : Sleeper} (ht : t ∈ w.core.parking.sleepers) :
      Function.update on s.waiter o t.waiter = on t.waiter :=
    hold (hw.bound t (List.mem_append_right _ ht))
  constructor <;> dsimp only <;> try rw [hsleepers]
  · intro x id hx
    rw [hnext, hids]
    by_cases he : x = s.waiter
    · subst he
      rw [Function.update_self] at hx
      exact ⟨by omega, ho id hx⟩
    · rw [Function.update_of_ne he] at hx
      exact (hi.bound x id hx).imp_left Nat.lt_succ_of_lt
  · intro id task x hf hx
    rcases hslot id task x hf hx with ⟨rfl, ho⟩ | hon
    · rw [Function.update_self, ho]
    · exact (hold (hi.bound x id hon).1).trans hon
  · intro t ht x hx
    rcases List.mem_append.1 ht with ht | ht
    · rw [hold (hw.named x (.displaced ht hx)).1, hparked ht]
      exact hi.displaced t ht x hx
    · obtain rfl := List.mem_singleton.1 ht
      obtain ⟨hlt, hon⟩ := hdisplaced x hx
      rw [hold (hid ▸ hlt), Function.update_self, hon]
  · intro t ht hr
    rcases List.mem_append.1 ht with ht | ht
    · rw [hparked ht]
      exact hi.torn t ht hr
    · obtain rfl := List.mem_singleton.1 ht
      rw [Function.update_self, htorn hr]
  · intro x hx id hon
    have hx' : x ∈ woken ⟨w, k⟩ := by
      unfold woken at hx ⊢
      rwa [hback] at hx
    have hlt : x.id < w.core.parking.next := by
      rcases List.mem_append.1 hx' with hwake | hx'
      · exact (hw.named x (.wake hwake)).1
      rcases List.mem_append.1 hx' with hroused | hback
      · obtain ⟨t, ht, rfl⟩ := List.mem_map.1 hroused
        exact hw.bound t (List.mem_append_left _ ht)
      · obtain ⟨e, he, rfl⟩ := List.mem_map.1 hback
        exact (hw.back e he).1
    rw [hold hlt] at hon
    exact hnone id (hi.settled x hx' id hon)

end Moment.Assigned

/-- The last reference to a region wakes a teardown, if it wakes anybody. -/
theorem Moment.Tended.parked_of_put {w : World ε} {k : Hand} {h : Handle} {waiter : Waiter}
    {map : Mappings} (ht : Moment.Tended ⟨w, k⟩) (hk : w.core.mappings.Keyed)
    (found : w.core.mappings.put? h = some (some waiter, map)) :
    ∃ s ∈ w.core.parking.sleepers, s.waiter = waiter ∧ s.rest.region? ≠ none := by
  obtain ⟨u, u', hput, hr⟩ := Mappings.put?_eq_some found
  obtain ⟨hrefs, -, hcases⟩ := RegionUse.put?_eq_some hput
  obtain ⟨-, hwoken, -⟩ := hcases.resolve_left fun hkept => by cases hkept.2.1
  obtain ⟨hf, -⟩ | ⟨-, hf, -⟩ := hr.cases
  · cases hwoken.trans (ht.registered h u hf)
  · obtain ⟨s, hs, hregion, -, hslot⟩ :=
      Mappings.Tended.exists_parked ht hk hf (by omega)
    exact ⟨s, hs, Option.some.inj (hslot.symm.trans hwoken.symm), by rw [hregion]; nofun⟩

/-- Each move leaves every waiter with his task. -/
theorem Move.assigned {on : Waiter → Option TaskId} (h : Move p stray m m') (ha : m.Accounted)
    (hi : m.Assigned on) :
    ∃ on', m'.Assigned on' ∧ ∀ w id, on w = some id → on' w = some id := by
  obtain ⟨⟨hk, -⟩, hw, ht, hc, -, -⟩ := ha
  have hsame (hi : m'.Assigned on) :
      ∃ on', m'.Assigned on' ∧ ∀ w id, on w = some id → on' w = some id :=
    ⟨on, hi, fun _ _ hon => hon⟩
  -- A call that parks is assigned to a task, and its waiter was not before.
  have hpark {o : Option TaskId}
      (hi' : m'.Assigned (Function.update on m.world.core.parking.fresh.1 o)) :
      ∃ on', m'.Assigned on' ∧ ∀ w id, on w = some id → on' w = some id := by
    refine ⟨_, hi', fun w id hon => (Function.update_of_ne ?_ ..).trans hon⟩
    rintro rfl
    exact Nat.lt_irrefl _ (hi.bound _ id hon).1
  cases h with
  | log w k e he =>
    refine hsame (hi.congr rfl rfl fun x hx => ?_)
    unfold Moment.woken at hx ⊢
    rwa [World.record_log _ _ he] at hx
  | putLast w k h waiter map found =>
    obtain ⟨s, hs, rfl, hr⟩ := ht.parked_of_put hk found
    have hi' : Moment.Assigned on ⟨w.setMappings map, k⟩ := { hi with }
    exact hsame (hi'.unpark s.waiter fun id hon => by cases (hi.torn s hs hr).symm.trans hon)
  | wake w k waiter =>
    have hi' : Moment.Assigned on ⟨w, k⟩ := hi.congr rfl rfl fun x => List.mem_cons_of_mem _
    exact hsame (hi'.unpark waiter (hi.settled waiter (List.mem_cons_self ..)))
  | detach w k h use map cause found unused =>
    have hcore := (w.setMappings map).unpinRegion_core p use.region cause
    refine hsame (hi.congr ((congrArg Core.parking hcore).trans rfl)
      ((congrArg Core.tasks hcore).trans rfl) fun x hx => ?_)
    unfold Moment.woken at hx ⊢
    rwa [World.unpinRegion_record] at hx
  | park w k h use map rest found used tears =>
    have hempty := ht.registered h use (Mappings.detach?_eq_some found).1
    refine hpark (o := none) (hi.park hw (s := ⟨w.core.parking.fresh.1, use.slot.occupant, rest⟩)
      rfl rfl rfl rfl nofun (fun id task x hf hx => .inr (hi.slot id task x hf hx)) ?_
      (fun _ => rfl) fun _ hn => hn)
    rw [hempty]
    nofun
  | resume w k s =>
    have hcore := w.resume_core p s
    refine hsame (hi.congr ((congrArg Core.parking hcore).trans rfl)
      ((congrArg Core.tasks hcore).trans rfl) fun x hx => ?_)
    unfold Moment.woken at hx ⊢
    rw [World.back_resume] at hx
    exact (List.perm_middle.append_left k.wakes).subset hx
  | install w k id rest displaced tasks found waits =>
    obtain ⟨task, hf, rfl, rfl⟩ := Tasks.install?_eq_some found
    have hdisplaced (x : Waiter) (hx : task.slot.occupant = some x) :
        x.id < w.core.parking.fresh.1.id ∧ on x = some id :=
      ⟨(hw.named x (.slot hf hx)).1, hi.slot id task x hf hx⟩
    refine hpark (o := some id) (hi.park hw
      (s := ⟨w.core.parking.fresh.1, task.slot.occupant, rest⟩) rfl rfl rfl rfl
      (fun _ he => Option.some.inj he ▸ hc.ids id task hf) (fun other t x hf' hx => ?_) hdisplaced
      (fun hr => absurd waits hr) fun other => Sharded.find?_insert_eq_none hf)
    replace hf' := (Sharded.find?_insert ..).symm.trans hf'
    split at hf'
    · next he =>
      obtain rfl := Option.some.inj hf'
      exact .inl ⟨(Option.some.inj hx).symm, congrArg some he.symm⟩
    · exact .inr (hi.slot other t x hf' hx)
  | enroll w k h task use new nobody nothing found same =>
    refine hsame (hi.mono rfl (Nat.le_succ _) (fun other t x hf hx => ?_) (fun other hlt hn => ?_)
      fun x hx => .inl hx)
    · replace hf := (Sharded.find?_insert ..).symm.trans hf
      split at hf
      · obtain rfl := Option.some.inj hf
        rw [nobody] at hx
        cases hx
      · exact hi.slot other t x hf hx
    · refine (Sharded.find?_insert ..).trans ((if_neg ?_).trans hn)
      rintro rfl
      rw [new] at hlt
      exact Nat.lt_irrefl _ hlt
  | remove w k id task tasks found =>
    obtain ⟨hf, rfl⟩ := Tasks.remove?_eq_some found
    refine hsame (hi.mono rfl (Nat.le_refl _) (fun other t x hf' hx => ?_)
      (fun other _ => Sharded.find?_erase_eq_none) fun x hx => ?_)
    · replace hf' := (Sharded.find?_erase ..).symm.trans hf'
      split at hf'
      · cases hf'
      · exact hi.slot other t x hf' hx
    · unfold Moment.woken at hx
      rw [List.append_assoc] at hx
      refine (List.mem_append.1 hx).symm.imp_right fun hx other hon => ?_
      obtain rfl : other = id := Option.some.inj
        (hon.symm.trans (hi.slot id task x hf (Option.mem_toList.1 hx)))
      exact Sharded.find?_erase_self ..
  | release w k pins =>
    refine hsame (hi.congr rfl rfl fun x hx => ?_)
    unfold Moment.woken at hx ⊢
    rwa [World.release_record p rfl] at hx
  | retain w k id r pins tasks found =>
    obtain ⟨task, hf, rfl⟩ := Tasks.retain?_eq_some found
    refine hsame (hi.mono rfl (Nat.le_refl _) (fun other t x hf' hx => ?_)
      (fun other _ => Sharded.find?_insert_eq_none hf) fun x hx => .inl hx)
    replace hf' := (Sharded.find?_insert ..).symm.trans hf'
    split at hf'
    · next he =>
      obtain rfl := Option.some.inj hf'
      exact he ▸ hi.slot id task x hf hx
    · exact hi.slot other t x hf' hx
  | endLaunch w k l =>
    have htable := Tasks.table_finish w.core.tasks l.task
    exact hsame (hi.mono rfl (Tasks.ids_finish w.core.tasks l.task ▸ Nat.le_refl _)
      (fun other t x hf => hi.slot other t x (htable ▸ hf))
      (fun other _ hn => (congrArg (Sharded.find? · other) htable).trans hn) fun x hx => .inl hx)
  | land w k token f flights found =>
    have htable := Tasks.table_finish w.core.tasks f.task
    exact hsame (hi.mono rfl (Tasks.ids_finish w.core.tasks f.task ▸ Nat.le_refl _)
      (fun other t x hf => hi.slot other t x (htable ▸ hf))
      (fun other _ hn => (congrArg (Sharded.find? · other) htable).trans hn) fun x hx => .inl hx)
  | _ => exact hsame { hi with }

/-! ## A call that waits -/

/-- A call that has come back has reported what it was to report. -/
theorem Move.answers {t : Sleeper} (h : Move p stray m m') (hw : m.Waiting) (hf : m.Follows t)
    (hi : ∀ reply, (t.waiter, reply) ∈ m.world.record Event.back → reply = t.rest.reply) :
    ∀ reply, (t.waiter, reply) ∈ m'.world.record Event.back → reply = t.rest.reply := by
  cases h with
  | log w k e he =>
    rw [World.record_log _ _ he]
    exact hi
  | detach w k h use map cause found unused =>
    rw [World.unpinRegion_record]
    exact hi
  | release w k pins =>
    rw [World.release_record p rfl]
    exact hi
  | resume w k s =>
    intro reply hr
    rw [World.back_resume] at hr
    rcases List.mem_cons.1 hr with he | hr
    · obtain ⟨hwaiter, rfl⟩ := Prod.mk.inj he
      -- Nobody else has the waiter, and who has come back has none any more.
      rcases hf with hmem | hback
      · rw [List.inj_on_of_nodup_map hw.nodup hmem (List.mem_cons_self ..) hwaiter]
      · exact absurd hwaiter.symm ((hw.back _ hback).2 s (List.mem_cons_self ..))
    · exact hi reply hr
  | _ => exact hi

/-- A parked call waits for a task, or has come back. -/
structure Moment.Awaiting (t : Sleeper) (id : TaskId) (m : Moment ε) : Prop where
  accounted : m.Accounted
  expected : m.Expected
  assigned : ∃ on, m.Assigned on ∧ on t.waiter = some id
  waits : t.rest.region? = none
  follows : m.Follows t
  answers : ∀ reply, (t.waiter, reply) ∈ m.world.record Event.back → reply = t.rest.reply

theorem Move.awaiting {t : Sleeper} (h : Move p stray m m') (hi : m.Awaiting t id) :
    m'.Awaiting t id where
  accounted := h.accounted hi.accounted
  expected := h.expected hi.accounted.waiting hi.accounted.tended hi.accounted.counted hi.expected
  assigned := by
    obtain ⟨on, hassigned, hon⟩ := hi.assigned
    obtain ⟨on', hassigned', hkeep⟩ := h.assigned hi.accounted hassigned
    exact ⟨on', hassigned', hkeep _ _ hon⟩
  waits := hi.waits
  follows := h.follows hi.accounted.waiting hi.follows
  answers := h.answers hi.accounted.waiting hi.follows hi.answers

namespace Moment.Awaiting

variable {t : Sleeper}

/-- A call that has come back has waited until its task was out of the table. -/
theorem ended (hi : m.Awaiting t id) {reply : Reply}
    (hr : .resumed t.waiter reply ∈ m.world.ambient.history) :
    reply = t.rest.reply ∧ ¬m.Registered id := by
  obtain ⟨on, hassigned, hon⟩ := hi.assigned
  have hback := World.mem_back.2 hr
  have hwoken : t.waiter ∈ m.woken :=
    List.mem_append_right _ (List.mem_append_right _ (List.mem_map.2 ⟨_, hback, rfl⟩))
  exact ⟨hi.answers reply hback, not_not.2 (hassigned.settled _ hwoken id hon)⟩

/-- Once its task is out of the table and nobody is about to be woken, the call has come back. -/
theorem back (hi : m.Awaiting t id) (hwakes : m.hand.wakes = []) (hroused : m.hand.roused = [])
    (hgone : ¬m.Registered id) : .resumed t.waiter t.rest.reply ∈ m.world.ambient.history := by
  obtain ⟨on, hassigned, hon⟩ := hi.assigned
  refine World.mem_back.1 (hi.follows.resolve_left fun hmem => ?_)
  rw [hroused, List.nil_append] at hmem
  obtain ⟨other, hother, hregistered⟩ := hi.expected.chain hi.accounted.waiting hi.accounted.tended
    hwakes (Q := fun x => ∃ other, on x = some other ∧ m.Registered other)
    (fun other task x hf hx => ⟨other, hassigned.slot other task x hf hx, by
      unfold Moment.Registered; rw [hf]; nofun⟩)
    (fun s hs ⟨other, hother, hr⟩ x hx => ⟨other, (hassigned.displaced s hs x hx).trans hother, hr⟩)
    t hmem hi.waits
  obtain rfl := Option.some.inj (hother.symm.trans hon)
  exact hgone hregistered

end Moment.Awaiting

/-! ## Calls that park -/

/-- The task that the call waits for. -/
def Call.wait? : Call → Option TaskId
  | .wait task => some task
  | .dispatch _ number (.wait task) =>
    if CommandCode.ofNumber? number = some (Block.wait task).code then some ⟨task⟩ else none
  | _ => none

/-- The request that the call makes and waits for. -/
def Call.copy? : Call → Option CopyOrder
  | .copy order => some order
  | .dispatch _ number (.copy b) =>
    if CommandCode.ofNumber? number = some (Block.copy b).code then b.order.toOption else none
  | _ => none

namespace World

variable {w : World ε} {order : CopyOrder} {rest : Rest} {waiter : Waiter}

/-- A call waits for a task that is registered, in its slot. -/
theorem await_listed (hf : w.core.tasks.table.find? id ≠ none) (rest : Rest) :
    (w.await id rest).1 = .parked w.core.parking.fresh.1 ∧
      ∃ t ∈ (w.await id rest).2.core.parking.sleepers,
        t.waiter = w.core.parking.fresh.1 ∧ t.rest = rest ∧
        ∃ task, (w.await id rest).2.core.tasks.table.find? id = some task ∧
          task.slot.occupant = some t.waiter := by
  obtain ⟨task, hf⟩ := Option.ne_none_iff_exists'.1 hf
  have hi : w.core.tasks.install? id w.core.parking.fresh.1 = some (task.slot.occupant,
      { w.core.tasks with
        table := w.core.tasks.table.insert id
          { task with slot := ⟨some w.core.parking.fresh.1⟩ } }) := by
    unfold Tasks.install?
    rw [hf]
    rfl
  unfold await
  dsimp only
  rw [hi]
  exact ⟨rfl, _, List.mem_append_right _ (List.mem_singleton_self _), rfl, rfl, _,
    (Sharded.find?_insert ..).trans (if_pos rfl), rfl⟩

/-- A request that has been admitted waits for its task, if that is still registered. -/
theorem copy_of_ok {w₁ : World ε} (h : w.copyAsync p order = (.ok id, w₁)) :
    w.copy p order = ((w₁.await id (.copy id)).1.map fun _ => .ok id, (w₁.await id (.copy id)).2) := by
  unfold copy
  rw [h]
  dsimp only
  generalize w₁.await id (.copy id) = answer
  obtain ⟨value | waiter, w'⟩ := answer <;> rfl

/-- A copy that does not wait for its task has found it gone. -/
theorem copy_returned (h : (w.copy p order).1 = .returned (.ok id)) :
    (w.copy p order).2.core.tasks.table.find? id = none := by
  rcases hanswer : w.copyAsync p order with ⟨e | other, w₁⟩
  · unfold copy at h
    rw [hanswer] at h
    cases h
  · rw [copy_of_ok hanswer] at h ⊢
    by_cases hf : w₁.core.tasks.table.find? other = none
    · rw [await_unlisted hf] at h ⊢
      obtain rfl : other = id := Except.ok.inj (Outcome.returned.inj h)
      exact hf
    · rw [show (w₁.await other (.copy other)).1 = _ from (await_listed hf _).1] at h
      cases h

end World

namespace System

variable {s : System ε} {c : Call} {order : CopyOrder}

/-- A call that waits for a task does nothing else to the instance. -/
theorem perform_core_of_wait? (h : c.wait? = some id) (s : System ε) :
    (s.perform p c).world.core = (s.world.wait id).2.core := by
  cases c with
  | wait task =>
    obtain rfl : task = id := by simpa [Call.wait?] using h
    rfl
  | dispatch caller number block =>
    cases block with
    | wait task =>
      obtain ⟨hcode, rfl⟩ : _ ∧ _ := by simpa [Call.wait?] using h
      exact World.dispatch_core p hcode s.world
    | _ => simp [Call.wait?] at h
  | _ => simp [Call.wait?] at h

/-- A call that makes a request and waits for it does nothing else to the instance. -/
theorem perform_core_of_copy? (h : c.copy? = some order) (s : System ε) :
    (s.perform p c).world.core = (s.world.copy p order).2.core := by
  cases c with
  | copy order =>
    obtain rfl := Option.some.inj h
    rfl
  | dispatch caller number block =>
    cases block with
    | copy b =>
      unfold Call.copy? at h
      dsimp only at h
      split at h
      · next hcode =>
        refine (World.dispatch_core p hcode s.world).trans ?_
        unfold World.execute World.decodeCopy
        dsimp only
        cases horder : b.order with
        | error fault => rw [horder] at h; cases h
        | ok order' =>
          rw [horder] at h
          obtain rfl := Option.some.inj h
          rfl
      · cases h
    | _ => simp [Call.copy?] at h
  | _ => simp [Call.copy?] at h

/-- The call parks on a task, under a waiter, to report something once the task is over. -/
inductive Waits (p : Platform ε) (s : System ε) (c : Call) : TaskId → Waiter → Reply → Prop where
  | wait {id : TaskId} {waiter : Waiter} (call : c.wait? = some id)
      (parks : (s.world.wait id).1 = .parked waiter) : Waits p s c id waiter .done
  | copy {order : CopyOrder} {id : TaskId} {waiter : Waiter} (call : c.copy? = some order)
      (admitted : (s.world.copyAsync p order).1 = .ok id)
      (parks : (s.world.copy p order).1 = .parked waiter) : Waits p s c id waiter (.copied id)

namespace Waits

variable {waiter : Waiter} {reply : Reply}

theorem isCleanup (h : s.Waits p c id waiter reply) : c.isCleanup = false := by
  cases h with
  | wait call =>
    cases c with
    | cleanup task => cases call
    | _ => rfl
  | copy call =>
    cases c with
    | cleanup task => cases call
    | _ => rfl

/-- A call that parks is parked under its waiter, and its waiter is in the slot of the task. -/
theorem parked (h : s.Waits p c id waiter reply) :
    ∃ t ∈ (s.perform p c).world.core.parking.sleepers,
      t.waiter = waiter ∧ t.rest.region? = none ∧ t.rest.reply = reply ∧
      ∃ task, (s.perform p c).world.core.tasks.table.find? id = some task ∧
        task.slot.occupant = some t.waiter := by
  have hawait {w : World ε} {rest : Rest} (hparks : (w.await id rest).1 = .parked waiter)
      (hcore : (s.perform p c).world.core = (w.await id rest).2.core)
      (hregion : rest.region? = none) (hreply : rest.reply = reply) :
      ∃ t ∈ (s.perform p c).world.core.parking.sleepers,
        t.waiter = waiter ∧ t.rest.region? = none ∧ t.rest.reply = reply ∧
        ∃ task, (s.perform p c).world.core.tasks.table.find? id = some task ∧
          task.slot.occupant = some t.waiter := by
    rw [hcore]
    by_cases hf : w.core.tasks.table.find? id = none
    · rw [World.await_unlisted hf rest] at hparks
      cases hparks
    · obtain ⟨hfresh, t, ht, hwaiter, rfl, htask⟩ := World.await_listed hf rest
      obtain rfl := Outcome.parked.inj (hfresh.symm.trans hparks)
      exact ⟨t, ht, hwaiter, hregion, hreply, htask⟩
  cases h with
  | wait call parks => exact hawait parks (perform_core_of_wait? call s) rfl rfl
  | @copy order id waiter call admitted parks =>
    have hcopy := World.copy_of_ok (Prod.ext admitted rfl)
    have hcore := perform_core_of_copy? (p := p) call s
    rw [hcopy] at parks hcore
    refine hawait ?_ hcore rfl rfl
    cases hanswer : ((s.world.copyAsync p order).2.await id (.copy id)).1 with
    | returned value => rw [hanswer] at parks; cases parks
    | parked other =>
      rw [hanswer] at parks
      exact congrArg Outcome.parked (Outcome.parked.inj parks)

end Waits

end System

/-! ## Runs -/

namespace Reach

variable {s : System ε} {c : Call} {waiter : Waiter} {reply : Reply}

/-- Every waiter of a system waits for one task at most. -/
theorem assigned (h : Reach p (fun _ => True) s) : ∃ on, s.moment.Assigned on := by
  have hi : s.moment.Accounted ∧ ∃ on, s.moment.Assigned on :=
    h.any_invariant (I := fun m => m.Accounted ∧ ∃ on, m.Assigned on)
      (fun placement config x => ⟨Moment.accounted_fresh placement config x, fun _ => none, nofun,
        fun id task w hf _ => (by cases (Sharded.find?_empty ..).symm.trans hf), nofun, nofun, nofun⟩)
      fun _ _ hm ⟨ha, on, hi⟩ => ⟨hm.accounted ha, (hm.assigned ha hi).imp fun _ => And.left⟩
  exact hi.2

/-- What parks on a task waits for it from then on. -/
theorem awaiting (h : Reach p (fun _ => True) (s.perform p c)) (hw : s.Waits p c id waiter reply) :
    ∃ t : Sleeper, t.waiter = waiter ∧ t.rest.reply = reply ∧
      (s.perform p c).moment.Awaiting t id := by
  obtain ⟨t, ht, hwaiter, hregion, hreply, task, hf, hslot⟩ := hw.parked
  obtain ⟨on, hassigned⟩ := h.assigned
  refine ⟨t, hwaiter, hreply, h.any_accounted, h.expected,
    ⟨on, hassigned, hassigned.slot id task t.waiter hf hslot⟩, hregion, .inl ht, fun r hr => ?_⟩
  exact absurd rfl ((h.any_accounted.waiting.back _ hr).2 t ht)

/-- If only the library itself cleans tasks up, nothing is in flight of a task that is not
registered. -/
theorem landed (hs : stray ∨ p.CleansNothing) (h : Reach p (fun c => c.isCleanup → stray) s)
    (hm : Moves p stray s.moment m) (hgone : ¬m.Registered id) :
    ¬stray → m.world.core.flights.ofTask id = [] := by
  intro hn
  have hmove (m m' : Moment ε) (hm : Move p stray m m') :
      m.Accounted ∧ m.Covered → m'.Accounted ∧ m'.Covered := fun ⟨ha, hc⟩ =>
    ⟨hm.accounted ha, hm.covered hn ha.counted hc⟩
  have hi : m.Accounted ∧ m.Covered := Moves.keeps hmove hm (h.invariant hs (fun _ hc => hc)
    (fun placement config x =>
      ⟨Moment.accounted_fresh placement config x, (Moment.steady_fresh placement config x).covered⟩)
    hmove)
  refine List.eq_nil_iff_forall_not_mem.2 fun f hf => hgone ?_
  exact (Tasks.Covers.registered hi.2 (.inl ⟨f, Flights.mem_ofTask.1 hf⟩)).1

/-- **What waits for a task comes back when the task is over.** After any run, with any number of
calls parked on any tasks:

* A call that waits for a task parks if the task is registered. If it is not, the call says so at
  once and changes nothing.
* A copy that does not have to wait for its task any more returns when the task is over.
* Once a call has parked on a task, in whatever order others do, and whatever happens afterwards: it
  comes back once the task has been cleaned up, with its own report, and not before. This holds
  after any call, and at every moment in the middle of one at which nobody is about to be woken.
* If only the library itself cleans tasks up, nothing of the task is in flight when a call that has
  waited for it comes back, or when a copy returns that has not. -/
theorem waits_end (hs : stray ∨ p.CleansNothing) (h : Reach p (fun c => c.isCleanup → stray) s) :
    (∀ id, s.world.core.tasks.contains id = false ∧
        s.world.wait id = (.returned (.error .notFound), s.world) ∨
      s.world.core.tasks.contains id = true ∧
        ∃ waiter, (s.world.wait id).1 = .parked waiter) ∧
    (∀ c order id, c.copy? = some order → (s.world.copy p order).1 = .returned (.ok id) →
      (s.perform p c).world.core.tasks.contains id = false ∧
        (¬stray → (s.perform p c).world.core.flights.ofTask id = [])) ∧
    ∀ c id waiter reply, s.Waits p c id waiter reply →
      ∀ calls s', (∀ c ∈ calls, c.isCleanup → stray) → Performs p calls (s.perform p c) s' →
        (∀ r, .resumed waiter r ∈ s'.world.ambient.history ↔
          r = reply ∧ s'.world.core.tasks.contains id = false) ∧
        ∀ m, Moves p stray s'.moment m →
          (∀ r, .resumed waiter r ∈ m.world.ambient.history →
            r = reply ∧ ¬m.Registered id ∧ (¬stray → m.world.core.flights.ofTask id = [])) ∧
          (m.hand.wakes = [] → m.hand.roused = [] → ¬m.Registered id →
            .resumed waiter reply ∈ m.world.ambient.history) := by
  have hcontains (w : World ε) (id : TaskId) :
      w.core.tasks.contains id = false ↔ w.core.tasks.table.find? id = none := by
    simp [Tasks.contains, Sharded.contains]
  refine ⟨fun id => ?_, fun c order id hc hcopy => ?_,
    fun c id waiter reply hw calls s' hcalls hperform => ?_⟩
  · rw [hcontains]
    by_cases hf : s.world.core.tasks.table.find? id = none
    · exact .inl ⟨hf, World.await_unlisted hf .wait⟩
    · exact .inr ⟨by simpa using (hcontains s.world id).not.2 hf, _, (World.await_listed hf .wait).1⟩
  · have h₁ : Reach p (fun c => c.isCleanup → stray) (s.perform p c) := by
      refine h.call c fun hclean => ?_
      cases c with
      | cleanup task => cases hc
      | _ => cases hclean
    have hgone : (s.perform p c).world.core.tasks.table.find? id = none := by
      rw [System.perform_core_of_copy? hc]
      exact World.copy_returned hcopy
    exact ⟨(hcontains _ id).2 hgone, h₁.landed hs .refl (not_not.2 hgone)⟩
  · have h₁ : Reach p (fun c => c.isCleanup → stray) (s.perform p c) := by
      refine h.call c fun hclean => ?_
      rw [hw.isCleanup] at hclean
      cases hclean
    obtain ⟨t, rfl, rfl, hawaiting⟩ := awaiting (h₁.mono fun _ _ => trivial) hw
    obtain ⟨h', hmoves⟩ := hperform.moves hs (fun _ hc => hc) hcalls h₁
    have hat {m : Moment ε} (hm : Moves p stray s'.moment m) : m.Awaiting t id :=
      Moves.keeps (fun _ _ hm => hm.awaiting) (hmoves.trans hm) hawaiting
    refine ⟨fun r => ⟨fun hr => ?_, ?_⟩, fun m hm => ⟨fun r hr => ?_, (hat hm).back⟩⟩
    · obtain ⟨hreply, hgone⟩ := (hat .refl).ended hr
      exact ⟨hreply, (hcontains s'.world id).2 (not_not.1 hgone)⟩
    · rintro ⟨rfl, hgone⟩
      exact (hat .refl).back rfl rfl (not_not.2 ((hcontains s'.world id).1 hgone))
    · obtain ⟨hreply, hgone⟩ := (hat hm).ended hr
      exact ⟨hreply, hgone, h'.landed hs hm hgone⟩

/-- The first of two calls that wait for a copy comes back when the copy ends, and so does a copy that
waits for its own task. -/
theorem waits_end_copying :
    let order : CopyOrder := ⟨⟨1⟩, none, 0x1000, [.host 0x9000 0x1000]⟩
    let waited := Bench.copying
      |>.perform Bench.hookless (.wait ⟨1⟩)
      |>.perform Bench.hookless (.wait ⟨1⟩)
      |>.perform Bench.hookless (.land ⟨0⟩)
    let copied := Bench.copying
      |>.perform Bench.hookless (.copy order)
      |>.perform Bench.hookless (.land ⟨1⟩)
    Bench.hookless.CleansNothing ∧
      Reach Bench.hookless (fun c => c.isCleanup → False) Bench.copying ∧
      Bench.copying.Waits Bench.hookless (.wait ⟨1⟩) ⟨1⟩ ⟨0⟩ .done ∧
      .resumed ⟨0⟩ .done ∈ waited.world.ambient.history ∧
      Bench.copying.Waits Bench.hookless (.copy order) ⟨2⟩ ⟨0⟩ (.copied ⟨2⟩) ∧
      .resumed ⟨0⟩ (.copied ⟨2⟩) ∈ copied.world.ambient.history := by
  intro order waited copied
  have hp := Bench.cleansNothing_hookless
  have h : Reach Bench.hookless (fun c => c.isCleanup → False) Bench.copying := Bench.reach_copying
  obtain ⟨-, -, hends⟩ := waits_end (.inr hp) h
  have hwait : Bench.copying.Waits Bench.hookless (.wait ⟨1⟩) ⟨1⟩ ⟨0⟩ .done :=
    .wait rfl (by decide +kernel)
  have hcopy : Bench.copying.Waits Bench.hookless (.copy order) ⟨2⟩ ⟨0⟩ (.copied ⟨2⟩) :=
    .copy rfl (by decide +kernel) (by decide +kernel)
  obtain ⟨hwaited, -⟩ := hends _ _ _ _ hwait [.wait ⟨1⟩, .land ⟨0⟩] waited (by decide)
    (.call (.call (.done _)))
  obtain ⟨hcopied, -⟩ := hends _ _ _ _ hcopy [.land ⟨1⟩] copied (by decide) (.call (.done _))
  exact ⟨hp, h, hwait, (hwaited .done).2 ⟨rfl, by decide +kernel⟩, hcopy,
    (hcopied (.copied ⟨2⟩)).2 ⟨rfl, by decide +kernel⟩⟩

end Reach

end PeerDma
