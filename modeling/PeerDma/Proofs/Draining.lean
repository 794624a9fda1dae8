import PeerDma.Proofs.Failures
import PeerDma.Proofs.Outstanding
import PeerDma.Proofs.Pins
import PeerDma.Proofs.Tokens

/-!
# Draining a system

A system is at rest when nobody has a reference, nothing is in flight, no task is registered and no
call is parked. Every system gets there once its callers have given their references back and its
channels have ended what is in flight, in any order: the end of the last submission of a task cleans
the task up, the last reference to a region lets its teardown come back, and a waiter who has been
displaced from the slot of a task is woken by the one who displaced him.

* `Moment.Expected`, `Move.expected`: every call that waits for a task is going to be woken.
* `System.AtRest`, `Reach.atRest`: what holds once nobody has a reference and nothing is in flight.
* `System.todo`, `Performs.perm_todo`: what is left to be given back and to be ended.
* `Reach.drains`: a system comes to rest.
-/

namespace PeerDma

variable {ε : Type} {p : Platform ε} {stray : Prop} {m m' : Moment ε}

/-! ## Who wakes whom -/

/-- Somebody will wake every call that waits for a task: a call at work, a task that is registered,
or a call that was parked after it. -/
structure Moment.Expected (m : Moment ε) : Prop where
  named : ∀ s ∈ m.world.core.parking.sleepers, s.rest.region? = none →
    Named m.hand.wakes m.world.core.tasks.table m.world.core.parking.sleepers s.waiter
  older : ∀ s ∈ m.world.core.parking.sleepers, ∀ w, s.displaced = some w → w.id < s.waiter.id

namespace Moment.Expected

variable {w w' : World ε} {k k' : Hand}

/-- The same calls are parked, and no fewer waiters are named. -/
theorem mono (hi : Expected ⟨w, k⟩) (hparking : w'.core.parking = w.core.parking)
    (hnamed : ∀ x, Named k.wakes w.core.tasks.table w.core.parking.sleepers x →
      Named k'.wakes w'.core.tasks.table w.core.parking.sleepers x) : Expected ⟨w', k'⟩ := by
  constructor <;> dsimp only <;> rw [hparking]
  · exact fun s hs hr => hnamed _ (hi.named s hs hr)
  · exact hi.older

/-- A waiter is woken. -/
theorem unpark {waiter : Waiter} (hi : Expected ⟨w, { k with wakes := waiter :: k.wakes }⟩)
    (hn : (w.core.parking.sleepers.map Sleeper.waiter).Nodup) {roused : List Sleeper} :
    Expected ⟨w.unpark waiter, { k with roused }⟩ where
  named s hs hr := .unpark hn hs (hi.named s ((rouse_subperm _ _).subset
    (List.mem_append_right _ hs)) hr)
  older s hs := hi.older s ((rouse_subperm _ _).subset (List.mem_append_right _ hs))

/-- A call is parked under a new waiter. -/
theorem park (hi : Expected ⟨w, k⟩) {s : Sleeper}
    (hparking : w'.core.parking.sleepers = w.core.parking.sleepers ++ [s])
    (hnamed : ∀ x, Named k.wakes w.core.tasks.table w.core.parking.sleepers x →
      Named k.wakes w'.core.tasks.table (w.core.parking.sleepers ++ [s]) x)
    (hnew : s.rest.region? = none →
      Named k.wakes w'.core.tasks.table (w.core.parking.sleepers ++ [s]) s.waiter)
    (holder : ∀ x, s.displaced = some x → x.id < s.waiter.id) : Expected ⟨w', k⟩ := by
  constructor <;> dsimp only <;> rw [hparking] <;> intro t ht <;>
    rcases List.mem_append.1 ht with ht | ht
  · exact fun hr => hnamed _ (hi.named t ht hr)
  · obtain rfl := List.mem_singleton.1 ht
    exact hnew
  · exact hi.older t ht
  · obtain rfl := List.mem_singleton.1 ht
    exact holder

end Moment.Expected

/-- Each move keeps every call that waits for a task in somebody's sight. -/
theorem Move.expected (h : Move p stray m m') (hw : m.Waiting) (ht : m.Tended) (hc : m.Counted)
    (hi : m.Expected) : m'.Expected := by
  cases h with
  | putLast w k h waiter map found =>
    have hmore : Moment.Expected ⟨w.setMappings map, { k with wakes := waiter :: k.wakes }⟩ :=
      hi.mono rfl fun x hx => hx.mono (List.subset_cons_self _ _) (List.Subset.refl _)
    exact hmore.unpark hw.nodup_sleepers
  | wake w k waiter => exact hi.unpark hw.nodup_sleepers
  | detach w k h use map cause found unused =>
    have hcore := (w.setMappings map).unpinRegion_core p use.region cause
    refine hi.mono ((congrArg Core.parking hcore).trans rfl) fun x hx => ?_
    rw [hcore]
    exact hx
  | park w k h use map rest found used tears =>
    have hempty := ht.registered h use (Mappings.detach?_eq_some found).1
    refine hi.park (s := ⟨w.core.parking.fresh.1, use.slot.occupant, rest⟩) rfl
      (fun x hx => hx.mono (List.Subset.refl _) (List.subset_append_left _ _)) ?_ ?_
    · rw [tears]
      nofun
    · rw [hempty]
      nofun
  | resume w k s =>
    have hcore := w.resume_core p s
    refine hi.mono ((congrArg Core.parking hcore).trans rfl) fun x hx => ?_
    rw [hcore]
    exact hx
  | install w k id rest displaced tasks found waits =>
    obtain ⟨task, hf, rfl, rfl⟩ := Tasks.install?_eq_some found
    refine hi.park (s := ⟨w.core.parking.fresh.1, task.slot.occupant, rest⟩) rfl
      (fun x hx => ?_) (fun _ => ?_) fun x hx => (hw.named x (.slot hf hx)).1
    · by_cases hx' : task.slot.occupant = some x
      · exact .displaced (List.mem_append_right _ (List.mem_singleton_self _)) hx'
      · refine (hx.insert fun t hf' ht => ?_).mono (List.Subset.refl _)
          (List.subset_append_left _ _)
        exact absurd (Option.some.inj (hf'.symm.trans hf) ▸ ht) hx'
    · exact .slot ((Sharded.find?_insert ..).trans (if_pos rfl)) rfl
  | enroll w k h task use new nobody nothing found same =>
    refine hi.mono rfl fun x hx => hx.insert fun t hf => ?_
    rw [new] at hf
    cases (Mappings.Counted.find?_allocate hc).symm.trans hf
  | remove w k id task tasks found =>
    obtain ⟨hf, rfl⟩ := Tasks.remove?_eq_some found
    exact hi.mono rfl fun x hx => hx.erase hf
  | retain w k id r pins tasks found =>
    obtain ⟨task, hf, rfl⟩ := Tasks.retain?_eq_some found
    refine hi.mono rfl fun x hx => hx.insert fun t hf' hx => ?_
    exact Option.some.inj (hf'.symm.trans hf) ▸ hx
  | endLaunch w k l =>
    exact hi.mono rfl fun x hx => (Tasks.table_finish w.core.tasks l.task).symm ▸ hx
  | land w k token f flights found =>
    exact hi.mono rfl fun x hx => (Tasks.table_finish w.core.tasks f.task).symm ▸ hx
  | _ => exact { hi with }

theorem Moment.expected_fresh (placement : Placement) (config : Config) (x : ε) :
    Moment.Expected ⟨.fresh placement config x, {}⟩ := ⟨nofun, nofun⟩

/-- If nobody is about to be woken, what holds of those in the slots of tasks, and of whom a call has
displaced if it holds of that call, holds of every call that waits for a task. -/
theorem Moment.Expected.chain (hi : m.Expected) (hw : m.Waiting) (ht : m.Tended)
    (hwakes : m.hand.wakes = []) {Q : Waiter → Prop}
    (hslot : ∀ id task w, m.world.core.tasks.table.find? id = some task →
      task.slot.occupant = some w → Q w)
    (hdisplaced : ∀ s ∈ m.world.core.parking.sleepers, Q s.waiter → ∀ w, s.displaced = some w → Q w) :
    ∀ s ∈ m.world.core.parking.sleepers, s.rest.region? = none → Q s.waiter := by
  intro s hs hr
  -- The call that has displaced a waiter is a later one, and there is an end to those.
  induction hn : m.world.core.parking.next - s.waiter.id using Nat.strong_induction_on
    generalizing s with
  | _ n ih =>
    cases hi.named s hs hr with
    | wake h =>
      rw [hwakes] at h
      cases h
    | slot found h => exact hslot _ _ _ found h
    | @displaced t parked h =>
      have hlt := hi.older t parked _ h
      have hbound := hw.bound t (List.mem_append_right _ parked)
      have hwaits : t.rest.region? = none := by
        by_contra hregion
        obtain ⟨r, hregion⟩ := Option.ne_none_iff_exists'.1 hregion
        cases (ht.parked t parked r hregion).1.symm.trans h
      exact hdisplaced t parked (ih _ (by omega) t parked hwaits rfl) _ h

/-- If nobody is about to be woken and no task is registered, no call waits for a task. -/
theorem Moment.Expected.torn (hi : m.Expected) (hw : m.Waiting) (ht : m.Tended)
    (hwakes : m.hand.wakes = [])
    (htasks : ∀ id, m.world.core.tasks.table.find? id = none) :
    ∀ s ∈ m.world.core.parking.sleepers, s.rest.region? ≠ none :=
  hi.chain hw ht hwakes (Q := fun _ => False)
    (fun id _ _ found _ => by cases (htasks id).symm.trans found) fun _ _ hfalse _ _ => hfalse

/-! ## Systems at rest -/

/-- Nothing is going on in a system: what is on the ledger is one pin for each registered region. -/
structure System.AtRest (s : System ε) : Prop where
  held : s.held = []
  flights : s.world.core.flights.flights = []
  sleepers : s.world.core.parking.sleepers = []
  tasks : s.world.core.tasks.size = 0
  refs : ∀ h use, s.world.core.mappings.table.find? h = some use → use.refs = 0
  draining : s.world.core.mappings.draining.size = 0
  ledger : Ledger.ofHistory s.world.ambient.history =
    { pins := s.world.core.mappings.size, pages := 0 }

theorem Ledger.pins_ofHistory (history : List Event) : (Ledger.ofHistory history).pins =
    (history.flatMap Event.pins).length - (history.flatMap Event.handsBack).length := by
  induction history with
  | nil => rfl
  | cons e rest ih =>
    have hstep : (Ledger.ofHistory (e :: rest)).pins = (Ledger.ofHistory rest).pins +
        (e.pins.length - e.handsBack.length) := by
      cases e <;>
        simp [Ledger.ofHistory, Ledger.record, Event.pins, Event.handsBack, Int.sub_eq_add_neg]
    rw [hstep, ih, List.flatMap_cons, List.flatMap_cons, List.length_append, List.length_append]
    omega

/-- Between calls, the pins that have not been handed back are those of regions. -/
theorem System.pins_ledger {s : System ε} (hi : s.moment.Pinned) :
    (Ledger.ofHistory s.world.ambient.history).pins =
      s.world.core.mappings.size + s.world.core.mappings.draining.size := by
  have hlength := (hi.accounted.pins_perm rfl hi.once).length_eq
  rw [World.record_pins, World.record_handsBack, List.length_append, List.length_map,
    Mappings.length_regions] at hlength
  rw [Ledger.pins_ofHistory]
  show ((s.moment.world.ambient.history.flatMap Event.pins).length -
      (s.moment.world.ambient.history.flatMap Event.handsBack).length : Int) =
    s.moment.world.core.mappings.table.size + s.moment.world.core.mappings.draining.size
  omega

theorem Reach.expected {s : System ε} (h : Reach p (fun _ => True) s) : s.moment.Expected := by
  have hi : s.moment.Accounted ∧ s.moment.Expected :=
    h.any_invariant (I := fun m => m.Accounted ∧ m.Expected)
      (fun _ _ _ => ⟨Moment.accounted_fresh .., Moment.expected_fresh ..⟩)
      fun _ _ hm ⟨ha, he⟩ =>
        ⟨hm.accounted ha, hm.expected ha.waiting ha.tended ha.counted he⟩
  exact hi.2

/-- If nothing is in flight, no task is registered. -/
theorem Reach.tasks_over {s : System ε} (h : Reach p (fun _ => True) s)
    (hflights : s.world.core.flights.flights = []) (id : TaskId) :
    s.world.core.tasks.table.find? id = none := by
  by_contra hr
  obtain ⟨hexact, hpos⟩ := h.tallied.exact hr List.not_mem_nil
  have hcount : s.world.core.tasks.outstandingOf id =
      (s.world.core.flights.ofTask id).length + 0 := hexact
  have hnone : s.world.core.flights.ofTask id = [] := by rw [Flights.ofTask, hflights]; rfl
  replace hpos : 0 < s.world.core.tasks.outstandingOf id := hpos
  rw [hcount, hnone] at hpos
  exact Nat.lt_irrefl _ hpos

/-- If nothing is in flight, all references are those of callers. -/
theorem Reach.outstanding_held {s : System ε} (h : Reach p (fun _ => True) s)
    (hflights : s.world.core.flights.flights = []) (r : Handle) :
    s.outstanding r = s.held.count r := by
  rw [System.outstanding, Tasks.onRegion_eq_zero (h.tasks_over hflights)]
  rfl

/-- A system in which nobody has a reference and nothing is in flight is at rest. -/
theorem Reach.atRest {s : System ε} (h : Reach p (fun _ => True) s) (hheld : s.held = [])
    (hflights : s.world.core.flights.flights = []) : s.AtRest := by
  have ha := h.any_accounted
  have htasks := h.tasks_over hflights
  have hrefs (r : Handle) (use : RegionUse) (hu : s.world.core.mappings.use? r = some use) :
      use.refs = 0 := by
    rw [System.refs_eq ha hu, h.outstanding_held hflights, hheld]
    rfl
  -- A region that drains is in use.
  have hdraining (r : Handle) : s.world.core.mappings.draining.find? r = none := by
    by_contra hd
    obtain ⟨use, hd⟩ := Option.ne_none_iff_exists'.1 hd
    have hpos := (System.teardowns_eq ha hd).1
    rw [hrefs r use (ha.keyed.regions.use?_draining hd)] at hpos
    exact Nat.lt_irrefl _ hpos
  have hsleepers : s.world.core.parking.sleepers = [] := by
    refine List.eq_nil_iff_forall_not_mem.2 fun t ht => ?_
    have hregion := h.expected.torn ha.waiting ha.tended rfl htasks t ht
    obtain ⟨r, hregion⟩ := Option.ne_none_iff_exists'.1 hregion
    obtain ⟨-, use, hd, -⟩ := ha.tended.parked t ht r hregion
    cases (hdraining r.handle).symm.trans hd
  have hsize : s.world.core.mappings.draining.size = 0 := Table.size_eq_zero hdraining
  refine ⟨hheld, hflights, hsleepers, Sharded.size_eq_zero htasks,
    fun r use hf => hrefs r use (Mappings.use?_registered hf), hsize, ?_⟩
  have hpins := System.pins_ledger h.pinned
  have hpages := System.pages_ledger h.conserved.balanced
  rw [hsize] at hpins
  rw [Tasks.pages_eq_zero htasks] at hpages
  exact congrArg₂ Ledger.mk (hpins.trans (by simp)) hpages

/-! ## Coming to rest -/

/-- What a system comes to by calls, the first one first. -/
inductive Performs {ε : Type} (p : Platform ε) : List Call → System ε → System ε → Prop where
  | done (s : System ε) : Performs p [] s s
  | call {c : Call} {calls : List Call} {s s' : System ε} (after : Performs p calls (s.perform p c) s') :
      Performs p (c :: calls) s s'
  | outside {calls : List Call} {s s' : System ε} (x : ε)
      (after : Performs p calls { s with world := s.world.setOutside x } s') : Performs p calls s s'

/-- Calls are sequences of moves, and lead on. -/
theorem Performs.moves {allowed : Call → Prop} {calls : List Call} {s s' : System ε}
    (hperform : Performs p calls s s') (hs : stray ∨ p.CleansNothing)
    (hc : ∀ c, allowed c → c.isCleanup → stray) (hcalls : ∀ c ∈ calls, allowed c)
    (h : Reach p allowed s) : Reach p allowed s' ∧ Moves p stray s.moment s'.moment := by
  induction hperform with
  | done s => exact ⟨h, .refl⟩
  | @call c calls s s' after ih =>
    obtain ⟨hfirst, hrest⟩ := List.forall_mem_cons.1 hcalls
    obtain ⟨h', hmoves⟩ := ih hrest (h.call c hfirst)
    exact ⟨h', (h.moves hs hc (hc c hfirst)).trans hmoves⟩
  | outside x after ih =>
    obtain ⟨h', hmoves⟩ := ih hcalls (h.outside x)
    exact ⟨h', .head (.outside _ _ x) hmoves⟩

/-- What is left to be done: references to be given back, and submissions to be ended. -/
def System.todo (s : System ε) : List Call :=
  s.held.map .release ++ (s.world.core.flights.flights.map Flight.token).map .land

variable {s s' : System ε} {c : Call} {calls : List Call}

/-- What is to be done is done by one call. -/
theorem Reach.perm_todo (h : Reach p (fun _ => True) s) (hc : c ∈ s.todo) :
    s.todo.Perm (c :: (s.perform p c).todo) := by
  unfold System.todo at hc ⊢
  rcases List.mem_append.1 hc with hc | hc
  · obtain ⟨r, hr, rfl⟩ := List.mem_map.1 hc
    rw [System.perform, if_pos hr]
    dsimp only
    rw [World.put_flights]
    exact ((List.perm_cons_erase hr).map Call.release).append_right _
  · obtain ⟨token, htoken, rfl⟩ := List.mem_map.1 hc
    obtain ⟨f, hf, rfl⟩ := List.mem_map.1 htoken
    have hperm := perm_cons_filter_ne h.tallied.tracked.nodup hf
    have hflights : (s.perform p (.land f.token)).world.core.flights.flights = _ :=
      congrArg Flights.flights (World.land_flights p f.token s.world)
    rw [hflights]
    exact (((hperm.map Flight.token).map Call.land).append_left _).trans List.perm_middle

/-- What is to be done submits nothing. -/
theorem System.submits_todo (p : Platform ε) (hc : c ∈ s.todo) :
    (s.perform p c).world.core.flights.next = s.world.core.flights.next ∧
      (s.perform p c).world.transfers = s.world.transfers := by
  rcases List.mem_append.1 hc with hc | hc
  · obtain ⟨r, hr, rfl⟩ := List.mem_map.1 hc
    rw [System.perform, if_pos hr]
    exact ⟨congrArg Flights.next (World.put_flights p r _), (World.Quiet.put p r _).transfers⟩
  · obtain ⟨token, -, rfl⟩ := List.mem_map.1 hc
    exact ⟨(congrArg Flights.next (World.land_flights p token s.world)).trans rfl,
      (World.Quiet.land p token _).transfers⟩

/-- Once all that was to be done is done, nothing is left, and no call that was parked is lost. -/
theorem Performs.todo_eq_nil (hperform : Performs p calls s s') (h : Reach p (fun _ => True) s)
    (hcalls : calls.Perm s.todo) :
    Reach p (fun _ => True) s' ∧ s'.todo = [] ∧
      s'.world.core.flights.next = s.world.core.flights.next ∧
      s'.world.transfers = s.world.transfers ∧ ∀ t, s.moment.Follows t → s'.moment.Follows t := by
  induction hperform with
  | done s => exact ⟨h, hcalls.nil_eq.symm, rfl, rfl, fun t ht => ht⟩
  | @call c calls s s' after ih =>
    have hc : c ∈ s.todo := hcalls.subset (List.mem_cons_self ..)
    obtain ⟨hnext, htransfers⟩ := System.submits_todo p hc
    obtain ⟨h', hnil, hnext', htransfers', hfollows⟩ :=
      ih (h.call c trivial) ((hcalls.trans (h.perm_todo hc)).cons_inv)
    refine ⟨h', hnil, hnext'.trans hnext, htransfers'.trans htransfers, fun t ht => ?_⟩
    exact hfollows t (Moves.keeps (I := fun m => m.Accounted ∧ m.Follows t)
      (fun _ _ hm ⟨ha, ht⟩ => ⟨hm.accounted ha, hm.follows ha.waiting ht⟩) (h.any_moves c)
      ⟨h.any_accounted, ht⟩).2
  | outside x after ih => exact ih (h.outside x) hcalls

/-- **Draining always empties a system.** After any run, let callers give all their references back
and let what is in flight end, each once, in any order. Then:

* Nobody has a reference, nothing is in flight, no task is registered, no call is parked, no region
  drains, and no registered region has a reference.
* Every page reference has been given back, and as many pins are left as regions are registered.
* The calls that were parked have all come back.
* Nothing has been submitted on the way. The end of a submission never submits anything. -/
theorem Reach.drains (h : Reach p (fun _ => True) s) (hcalls : calls.Perm s.todo)
    (hperform : Performs p calls s s') :
    s'.AtRest ∧
      (∀ t ∈ s.world.core.parking.sleepers,
        .resumed t.waiter t.rest.reply ∈ s'.world.ambient.history) ∧
      s'.world.core.flights.next = s.world.core.flights.next ∧
      s'.world.transfers = s.world.transfers ∧
      ∀ token, (s.world.land p token).core.flights.next = s.world.core.flights.next ∧
        (s.world.land p token).transfers = s.world.transfers := by
  obtain ⟨h', hnil, hnext, htransfers, hfollows⟩ := hperform.todo_eq_nil h hcalls
  obtain ⟨hheld, hflights⟩ := List.append_eq_nil_iff.1 hnil
  have hrest := h'.atRest (List.map_eq_nil_iff.1 hheld)
    (List.map_eq_nil_iff.1 (List.map_eq_nil_iff.1 hflights))
  refine ⟨hrest, fun t ht => ?_, hnext, htransfers, fun token =>
    ⟨(congrArg Flights.next (World.land_flights p token s.world)).trans rfl,
      (World.Quiet.land p token _).transfers⟩⟩
  rcases hfollows t (.inl ht) with hparked | hback
  · have hnone : t ∈ s'.world.core.parking.sleepers := hparked
    rw [hrest.sleepers] at hnone
    cases hnone
  · exact World.mem_back.1 hback

/-- A bench with a copy in flight and two calls that wait for it, a second copy whose call waits, and
a teardown that waits for both copies and for a caller. -/
def Bench.crowded : System Bench :=
  System.mk (.fresh {} {} { memory := { ending := .manual } }) []
    |>.perform platform (.map ⟨1⟩ ⟨0x10000⟩ 0x10000)
    |>.perform platform (.copyAsync ⟨⟨1⟩, none, 0, [.host 0x5000 0x1000]⟩)
    |>.perform platform (.wait ⟨1⟩)
    |>.perform platform (.wait ⟨1⟩)
    |>.perform platform (.copy ⟨⟨1⟩, none, 0, [.host 0x9000 0x1000]⟩)
    |>.perform platform (.acquire ⟨1⟩)
    |>.perform platform (.teardown ⟨1⟩ .unmap)

/-- The last copy to end lets the teardown come back. -/
theorem Reach.drains_crowded :
    let calls : List Call := [.land ⟨1⟩, .release ⟨1⟩, .land ⟨0⟩]
    let s' := Bench.crowded
      |>.perform Bench.platform (.land ⟨1⟩)
      |>.perform Bench.platform (.release ⟨1⟩)
      |>.perform Bench.platform (.land ⟨0⟩)
    Reach Bench.platform (fun _ => True) Bench.crowded ∧ calls.Perm Bench.crowded.todo ∧
      Performs Bench.platform calls Bench.crowded s' ∧
      (Bench.crowded.world.core.parking.sleepers.map fun t => (t.displaced, t.torn?)) =
        [(none, none), (some ⟨0⟩, none), (none, none), (none, some ⟨1⟩)] ∧ s'.AtRest := by
  intro calls s'
  have h : Reach Bench.platform (fun _ => True) Bench.crowded :=
    .call (.call (.call (.call (.call (.call (.call
      (@start _ _ _ {} {} { memory := { ending := .manual } } _ rfl) _ trivial) _ trivial) _ trivial)
      _ trivial) _ trivial) _ trivial) _ trivial
  have hheld : Bench.crowded.held = [⟨1⟩] := by decide +kernel
  have htokens : Bench.crowded.world.core.flights.flights.map Flight.token = [⟨1⟩, ⟨0⟩] := by
    decide +kernel
  have hcalls : calls.Perm Bench.crowded.todo := by
    rw [System.todo, hheld, htokens]
    exact .swap ..
  have hperform : Performs Bench.platform calls Bench.crowded s' :=
    .call (.call (.call (.done _)))
  exact ⟨h, hcalls, hperform, by decide +kernel, (drains h hcalls hperform).1⟩

end PeerDma
