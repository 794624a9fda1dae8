import PeerDma.Proofs.InFlight
import PeerDma.Proofs.Traces

/-!
# Evictions and submissions in flight

The device takes a pin back by firing its eviction notice, at any time. A notice that meets a region
in use waits for the users, so that no submission to the region is in flight any more when it
returns. There is one exception: a region that is draining already has a teardown that waits, and a
notice does not wait beside it. It returns at once, whatever is in flight.

* `Core.flightsTo`: the submissions in flight to a region.
* `Reach.evict_lands`: what is in flight to the region when a notice returns.
-/

namespace PeerDma

variable {ε : Type} {p : Platform ε} {m m' : Moment ε} {h : Handle}

/-- The submissions in flight that may write to a region: all but those of tasks that are registered
for another region. -/
def Core.flightsTo (c : Core) (h : Handle) : List Flight :=
  c.flights.flights.filter fun f =>
    (c.tasks.table.find? f.task).all fun task => task.holds.region.handle = h

/-- Nothing is in flight to a region that is neither registered nor draining. -/
theorem Moment.Steady.flightsTo_eq_nil (hi : m.Steady)
    (hu : m.world.core.mappings.use? h = none) : m.world.core.flightsTo h = [] := by
  refine List.filter_eq_nil_iff.2 fun f hf hto => ?_
  obtain ⟨task, ht, -⟩ := hi.covered.flights f hf
  obtain ⟨u, hu', -⟩ := hi.accounted.counted.targets f.task task ht
  have hh : task.holds.region.handle = h := by simpa [ht] using hto
  rw [hh, hu] at hu'
  cases hu'

/-! ## A region that is gone -/

namespace World

variable {w : World ε} {use : RegionUse} {mappings : Mappings}

theorem use?_unpinEvicted (hd : w.core.mappings.detach? h = some (use, mappings))
    (hh : use.region.handle = h) :
    ((w.setMappings mappings).unpinEvicted p use.region).core.mappings.use? h = none := by
  rw [unpinEvicted_core, hh]
  exact (Mappings.sets_detach hd).self

end World

/-! ## A notice that waits -/

/-- The region is out of the table, and the notice is the only one to take it down. -/
theorem Moment.Accounted.gone_evict {w : World ε} {k : Hand} {use : RegionUse} {mappings : Mappings}
    (hi : Moment.Accounted ⟨w, k⟩) (hd : w.core.mappings.detach? h = some (use, mappings))
    (hi' : Moment.Accounted ⟨w.parkTeardown use mappings (.eviction use.region), k⟩) :
    Moment.Gone h ⟨w.core.parking.fresh.1, use.slot.occupant, .eviction use.region⟩
      ⟨w.parkTeardown use mappings (.eviction use.region), k⟩ := by
  obtain ⟨hf, rfl⟩ := Mappings.detach?_eq_some hd
  obtain ⟨hh, hlt⟩ := hi.keyed.regions.registered h use hf
  have hmem : (⟨w.core.parking.fresh.1, use.slot.occupant, .eviction use.region⟩ : Sleeper) ∈
      k.roused ++ (w.core.parking.sleepers ++ [⟨_, use.slot.occupant, .eviction use.region⟩]) :=
    List.mem_append_right _ (List.mem_append_right _ (List.mem_singleton_self _))
  refine ⟨Sharded.find?_erase_self .., hlt, fun i hmap he => ?_, fun s hs ht => ?_, .inl hmem⟩
  · have hnone := (hi.keyed.map i hmap).2
    rw [he, Mappings.use?_registered hf] at hnone
    cases hnone
  · exact hi'.tended.eq_of_torn? hs hmem ht (congrArg some hh)

/-- Once its teardown has come back, a region is not listed any more. -/
theorem Moment.Gone.use?_eq_none {sleeper : Sleeper} (hg : m.Gone h sleeper) (hi : m.Accounted)
    {reply : Reply} (hr : .resumed sleeper.waiter reply ∈ m.world.ambient.history) :
    m.world.core.mappings.use? h = none := by
  by_contra hu
  obtain ⟨use, hu⟩ := Option.ne_none_iff_exists'.1 hu
  have htable : m.world.core.mappings.table.find? h = none := hg.table
  have hd := ((Mappings.use?_eq_some_iff.1 hu).resolve_left (by rw [htable]; nofun)).2
  obtain ⟨s, hs, hregion⟩ := hi.tended.torn h use hd
  have htorn : s.torn? = some h := by
    rw [Sleeper.torn?_of_region? hregion, (hi.keyed.regions.draining h use hd).1.1]
  obtain rfl := hg.only s hs htorn
  exact (hi.waiting.back _ (World.mem_back.2 hr)).2 s hs rfl

/-- **Evictions and submissions in flight.** Let only the library itself clean tasks up, and let
anything else happen in any order. Between calls no map is in progress. Let the notice of a handle
fire at any moment, also in the middle of a call; if the handle is that of a map in progress, let
that be the call at work.

* If the notice returns at once, nothing is in flight to the region, or the region is draining
  already. In that case the notice writes a line to the log and leaves everything as it is.
* If it waits, nothing is in flight to the region when it comes back, and from then on. -/
theorem Reach.evict_lands {s : System ε} (hp : p.CleansNothing)
    (hs : Reach p (fun c => ¬c.isCleanup) s) :
    s.world.core.mappings.pendingHandles = [] ∧
    ∀ m, Moves p False s.moment m → ∀ h,
      (h ∈ m.world.core.mappings.pendingHandles → ∃ i, m.hand.map = some i ∧ i.handle = h) →
      (∀ w', m.world.evict p h = (.returned (), w') →
        w'.core.flightsTo h = [] ∨
          (∃ use, m.world.core.mappings.draining.find? h = some use) ∧
            w' = m.world.log (.evictionAfterRelease h)) ∧
      ∀ waiter w', m.world.evict p h = (.parked waiter, w') →
        ∀ m', Moves p False ⟨w', m.hand⟩ m' →
          ∀ reply, .resumed waiter reply ∈ m'.world.ambient.history →
            m'.world.core.flightsTo h = [] := by
  have hclean : ∀ c : Call, ¬c.isCleanup → c.isCleanup → False := fun c hc hclean => hc hclean
  have hsteady : s.moment.Steady :=
    hs.invariant (.inr hp) hclean Moment.steady_fresh fun _ _ hm hi => hm.steady hi
  refine ⟨hs.pendingHandles, fun m hm h hpending => ?_⟩
  have hi : m.Steady := Moves.keeps (fun _ _ hm hi => hm.steady hi) hm hsteady
  have hi' : Moment.Steady ⟨(m.world.evict p h).2, m.hand⟩ :=
    Moves.keeps (fun _ _ hm hi => hm.steady hi) (Moves.evict h m.world m.hand) hi
  by_cases hn : h ∈ m.world.core.mappings.pendingHandles
  · -- The region is still to be registered.
    obtain ⟨mappings, he, huse⟩ := World.evict_pending p hn
    obtain ⟨i, hmap, rfl⟩ := hpending hn
    rw [he] at hi' ⊢
    refine ⟨fun w' hw => .inl ?_, nofun⟩
    obtain ⟨-, rfl⟩ := Prod.mk.inj hw
    exact hi'.flightsTo_eq_nil ((congrFun huse _).trans (hi.accounted.keyed.map i hmap).2)
  rcases hd : m.world.core.mappings.detach? h with _ | ⟨use, mappings⟩
  · have htable : m.world.core.mappings.table.find? h = none := Option.map_eq_none_iff.1 hd
    rw [World.evict_unlisted p hn hd] at hi' ⊢
    refine ⟨fun w' hw => ?_, nofun⟩
    obtain ⟨-, rfl⟩ := Prod.mk.inj hw
    cases hdraining : m.world.core.mappings.draining.find? h with
    | some use => exact .inr ⟨⟨use, rfl⟩, rfl⟩
    | none => exact .inl (hi'.flightsTo_eq_nil (Option.or_eq_none_iff.2 ⟨htable, hdraining⟩))
  have hh := (hi.accounted.keyed.regions.registered h use (Mappings.detach?_eq_some hd).1).1
  by_cases hu : use.refs = 0
  · rw [World.evict_unused p hn hd hu] at hi' ⊢
    refine ⟨fun w' hw => .inl ?_, nofun⟩
    obtain ⟨-, rfl⟩ := Prod.mk.inj hw
    exact hi'.flightsTo_eq_nil (World.use?_unpinEvicted hd hh)
  · rw [World.evict_used p hn hd hu]
    refine ⟨nofun, fun waiter w' hw m' hm' reply hr => ?_⟩
    obtain ⟨hwaiter, rfl⟩ := Prod.mk.inj hw
    obtain rfl := Outcome.parked.inj hwaiter
    have hpark : Move p False m
        ⟨m.world.parkTeardown use mappings (.eviction use.region), m.hand⟩ :=
      .park m.world m.hand h use mappings (.eviction use.region) hd hu rfl
    have hi₁ := hpark.steady hi
    have hgone := hi.accounted.gone_evict hd hi₁.accounted
    obtain ⟨hi₂, hgone₂⟩ := Moves.keeps (I := fun m => m.Steady ∧ m.Gone h _)
      (fun _ _ hm ⟨hi, hg⟩ => ⟨hm.steady hi, hm.gone hi.accounted.keyed hi.accounted.waiting hg⟩)
      (.head (.log _ _ (.teardownWaits h) rfl) hm') ⟨hi₁, hgone⟩
    exact hi₂.flightsTo_eq_nil (hgone₂.use?_eq_none hi₂.accounted hr)

/-- A notice waits for the copy to the region, and comes back when the copy ends. -/
theorem Reach.evict_lands_copying :
    Bench.hookless.CleansNothing ∧ Reach Bench.hookless (fun c => ¬c.isCleanup) Bench.copying ∧
      Bench.copying.world.core.flightsTo ⟨1⟩ ≠ [] ∧
      ∃ waiter w', Bench.copying.world.evict Bench.hookless ⟨1⟩ = (.parked waiter, w') ∧
        (w'.land Bench.hookless ⟨0⟩).core.flightsTo ⟨1⟩ = [] := by
  obtain ⟨hpending, hlands⟩ := evict_lands Bench.cleansNothing_hookless Bench.reach_copying
  obtain ⟨-, hlands⟩ := hlands Bench.copying.moment .refl ⟨1⟩ fun hmem => by
    rw [show Bench.copying.moment.world.core.mappings.pendingHandles = [] from hpending] at hmem
    cases hmem
  have hparks : Bench.copying.world.evict Bench.hookless ⟨1⟩ =
      (.parked ⟨0⟩, (Bench.copying.world.evict Bench.hookless ⟨1⟩).2) :=
    Prod.ext (by decide +kernel) rfl
  exact ⟨Bench.cleansNothing_hookless, Bench.reach_copying, by decide +kernel, ⟨0⟩, _, hparks,
    hlands ⟨0⟩ _ hparks _ (Moves.land ⟨0⟩ _ Bench.copying.moment.hand) .done (by decide +kernel)⟩

/-- A notice that meets a region whose teardown waits for a copy returns while the copy is in
flight. -/
theorem Reach.evict_draining :
    let s := Bench.copying.perform Bench.hookless (.teardown ⟨1⟩ .unmap)
    Bench.hookless.CleansNothing ∧ Reach Bench.hookless (fun c => ¬c.isCleanup) s ∧
      (s.world.evict Bench.hookless ⟨1⟩).1 = .returned () ∧
      (s.world.evict Bench.hookless ⟨1⟩).2.core.flightsTo ⟨1⟩ =
        [⟨⟨0⟩, ⟨1⟩, .memory, ⟨0x800000005000, ⟨0x4000000000⟩, 0x1000⟩⟩] :=
  ⟨Bench.cleansNothing_hookless, .call Bench.reach_copying _ nofun, by decide +kernel,
    by decide +kernel⟩

end PeerDma
