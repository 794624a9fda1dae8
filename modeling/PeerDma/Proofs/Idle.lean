import PeerDma.Bench.Session
import PeerDma.Proofs.Draining

/-!
# Idle instances

An instance is idle when no region and no task is registered. It may have more to look after than it
looks at: a region that drains is out of the table, and its pin is still there. But a region drains
only as long as somebody has a reference to it, and if callers have none, that is a task, which is
registered. So nothing is left behind when the instance of a process is dropped, which happens only
if it is idle.

* `Core.isIdle_iff`: what idle means for look-ups.
* `Bench.Session.stopProcess_ok_iff`, `Bench.Session.stopProcess_busy`: when the instance of a
  process is dropped, and when it stays.
* `Reach.flights_of_idle`: nothing is in flight in an idle instance.
* `Reach.idle_owes_nothing`: an idle instance has given everything back.
-/

namespace PeerDma

variable {ε : Type} {p : Platform ε}

/-! ## The instance of a process -/

theorem Core.isIdle_iff {c : Core} : c.isIdle ↔
    (∀ h, c.mappings.table.find? h = none) ∧ ∀ id, c.tasks.table.find? id = none := by
  unfold isIdle Mappings.isEmpty Tasks.isEmpty
  rw [Bool.and_eq_true, Sharded.isEmpty_iff, Sharded.isEmpty_iff]

/-- What is dropped is idle. -/
theorem Process.stop_ok_iff {core : Core} {a : Ambient ε} :
    (Process.stop (some core) a).1 = .ok () ↔ core.isIdle := by
  unfold stop
  dsimp only
  split
  · next hidle => exact iff_of_true rfl hidle
  · next hbusy => exact iff_of_false nofun hbusy

theorem Process.stop_busy {core : Core} {a : Ambient ε} (h : ¬core.isIdle) :
    (Process.stop (some core) a).1 = .error .busy := by
  unfold stop
  dsimp only
  rw [if_neg h]

namespace Bench.Session

variable {b : Session} {core : Core}

theorem stopProcess_ok_iff (hb : b.processCore = some core) :
    b.stopProcess.1 = .ok () ↔ core.isIdle := by
  rw [← Process.stop_ok_iff (a := { outside := b.bench })]
  unfold stopProcess onAmbient
  rw [hb]
  dsimp only
  cases (Process.stop (some core) ({ outside := b.bench } : Ambient Bench)).1 <;> exact Iff.rfl

/-- An instance that is not idle stays. -/
theorem stopProcess_busy (hb : b.processCore = some core) (h : ¬core.isIdle) :
    b.stopProcess.1 = .error .busy ∧ b.stopProcess.2.process = b.process ∧
      b.stopProcess.2.cores = b.cores := by
  have hstop := Process.stop_busy (a := ({ outside := b.bench } : Ambient Bench)) h
  unfold stopProcess onAmbient
  rw [hb]
  dsimp only
  rw [hstop]
  exact ⟨rfl, rfl, rfl⟩

end Bench.Session

/-! ## What an idle instance owes -/

theorem Reach.steady {s : System ε} (hp : p.CleansNothing)
    (h : Reach p (fun c => ¬c.isCleanup) s) : s.moment.Steady :=
  h.invariant (.inr hp) (fun _ hc hclean => hc hclean) Moment.steady_fresh fun _ _ hm => hm.steady

/-- If only the library itself cleans tasks up, what is in flight has a task, so that nothing is in
flight in an idle instance. -/
theorem Reach.flights_of_idle {s : System ε} (hp : p.CleansNothing)
    (h : Reach p (fun c => ¬c.isCleanup) s) (hidle : s.world.core.isIdle) :
    s.world.core.flights.flights = [] := by
  refine List.eq_nil_iff_forall_not_mem.2 fun f hf => ?_
  obtain ⟨task, htask, -⟩ := (h.steady hp).covered.flights f hf
  cases ((Core.isIdle_iff.1 hidle).2 f.task).symm.trans htask

/-- **An idle instance owes nothing.** After any run in which only the library itself cleans tasks
up, between two calls, and with no reference in the hands of callers:

* If the instance is idle, every pin has been handed back, and every page reference has been given
  back. No submission is in flight, neither by the books of the instance nor by what has passed
  between it and the channels, and no call is parked.
* The instance of a process can be dropped if and only if it is idle.
* As long as a region or a task is registered, it is busy, and it stays as it is. -/
theorem Reach.idle_owes_nothing {s : System ε} (hp : p.CleansNothing)
    (h : Reach p (fun c => ¬c.isCleanup) s) (hheld : s.held = []) :
    let core := s.world.core
    let history := s.world.ambient.history
    (core.isIdle →
      (↑(history.flatMap Event.pins) : Multiset (Handle × GpuAddr × PageTable)) =
          ↑(history.flatMap Event.handsBack) ∧
        (↑(history.flatMap Event.obtains) : Multiset HostPage) =
          ↑(history.flatMap Event.returns) ∧
        core.flights.flights = [] ∧ (∀ f : Flight, ¬f.Pending history) ∧
        core.parking.sleepers = []) ∧
      ∀ b : Bench.Session, b.processCore = some core →
        (b.stopProcess.1 = .ok () ↔ core.isIdle) ∧
          ((∃ r, core.mappings.table.find? r ≠ none) ∨ (∃ id, core.tasks.table.find? id ≠ none) →
            b.stopProcess.1 = .error .busy ∧ b.stopProcess.2.process = b.process ∧
              b.stopProcess.2.cores = b.cores) := by
  intro core history
  have hany : Reach p (fun _ => True) s := h.mono fun _ _ => trivial
  refine ⟨fun hidle => ?_, fun b hb => ⟨Bench.Session.stopProcess_ok_iff hb, fun hwork => ?_⟩⟩
  · obtain ⟨hregions, htasks⟩ := Core.isIdle_iff.1 hidle
    have hflights := h.flights_of_idle hp hidle
    have hrest := hany.atRest hheld hflights
    have hregions : core.mappings.regions = [] := by
      unfold Mappings.regions
      rw [Sharded.toList_eq_nil hregions, List.length_eq_zero_iff.1 hrest.draining]
      rfl
    have hpins := hany.pinned.accounted.pins_perm rfl hany.pinned.once
    rw [World.record_pins, World.record_handsBack,
      show s.moment.world.core.mappings.regions = [] from hregions, List.map_nil,
      List.append_nil] at hpins
    have hpages := hany.conserved.balanced.between
    rw [Tasks.pages_eq_zero htasks, add_zero] at hpages
    refine ⟨Multiset.coe_eq_coe.2 hpins, hpages, hflights, fun f hf => ?_, hrest.sleepers⟩
    have hmem := (h.steady hp).mem_flights hf
    rw [show s.moment.world.core.flights.flights = [] from hflights] at hmem
    cases hmem
  · refine Bench.Session.stopProcess_busy hb fun hidle => ?_
    obtain ⟨hregions, htasks⟩ := Core.isIdle_iff.1 hidle
    rcases hwork with ⟨r, hr⟩ | ⟨id, hid⟩
    · exact hr (hregions r)
    · exact hid (htasks id)

/-- A bench whose only region drains, under a copy that is in flight. -/
def Bench.closing : System Bench := copying.perform hookless (.teardown ⟨1⟩ .unmap)

/-- As long as the copy is in flight, the instance is busy with it, though no region is registered.
When it has ended, nothing is left. -/
theorem Reach.idle_owes_nothing_closing :
    let s := Bench.closing.perform Bench.hookless (.land ⟨0⟩)
    let before : Bench.Session :=
      { process := some 0, cores := Table.empty.insert 0 Bench.closing.world.core }
    let after : Bench.Session := { process := some 0, cores := Table.empty.insert 0 s.world.core }
    Bench.hookless.CleansNothing ∧ Reach Bench.hookless (fun c => ¬c.isCleanup) Bench.closing ∧
      Bench.closing.held = [] ∧ Bench.closing.world.core.mappings.isEmpty ∧
      before.stopProcess.1 = .error .busy ∧ before.stopProcess.2.process = some 0 ∧
      s.held = [] ∧ s.world.core.isIdle ∧ after.stopProcess.1 = .ok () ∧
      (s.world.ambient.history.flatMap Event.pins).length = 1 ∧
      (s.world.ambient.history.flatMap Event.pins).Perm
        (s.world.ambient.history.flatMap Event.handsBack) := by
  intro s before after
  have hp := Bench.cleansNothing_hookless
  have h : Reach Bench.hookless (fun c => ¬c.isCleanup) Bench.closing :=
    .call Bench.reach_copying _ nofun
  have hcopying : ∃ id, Bench.closing.world.core.tasks.table.find? id ≠ none := by
    have hsome : (Bench.closing.world.core.tasks.table.find? ⟨1⟩).isSome := by decide +kernel
    exact ⟨⟨1⟩, Option.ne_none_iff_isSome.2 hsome⟩
  have hheld : Bench.closing.held = [] := by decide +kernel
  obtain ⟨-, hbefore⟩ := idle_owes_nothing hp h hheld
  obtain ⟨-, hbusy⟩ := hbefore before (by
    rw [Bench.Session.processCore, Option.bind_some, Table.find?_insert, if_pos rfl])
  obtain ⟨hanswer, hstays, -⟩ := hbusy (.inr hcopying)
  have h' : Reach Bench.hookless (fun c => ¬c.isCleanup) s := .call h _ nofun
  have hheld' : s.held = [] := by decide +kernel
  have hidle : s.world.core.isIdle := by decide +kernel
  obtain ⟨howes, hafter⟩ := idle_owes_nothing hp h' hheld'
  obtain ⟨hdropped, -⟩ := hafter after (by
    rw [Bench.Session.processCore, Option.bind_some, Table.find?_insert, if_pos rfl])
  have hunlisted : Bench.closing.world.core.mappings.isEmpty := by decide +kernel
  have hone : (s.world.ambient.history.flatMap Event.pins).length = 1 := by decide +kernel
  obtain ⟨hpins, -⟩ := howes hidle
  exact ⟨hp, h, hheld, hunlisted, hanswer, hstays, hheld', hidle, hdropped.2 hidle, hone,
    Multiset.coe_eq_coe.1 hpins⟩

end PeerDma
