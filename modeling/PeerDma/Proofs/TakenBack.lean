import PeerDma.Proofs.Evictions

/-!
# Regions that notices have taken back

A notice that finds a region registered takes it back: it unpins the region at once, or it waits for
its references and unpins it when it comes back. Those notices, and the maps that lose their range to
the device, are what counts as an eviction.

* `Move.evictions`, `System.evictions_perform`: what counts as an eviction, call by call.
* `System.TakenBack`: what has become of the regions that notices have taken back.
* `Steps`: the systems that a run leads to, with its calls and the systems they were made in.
* `Steps.takenBack`, `Steps.evictions`: the regions taken back and the evictions of a run.
-/

namespace PeerDma

variable {ε : Type} {p : Platform ε} {stray : Prop} {m m' : Moment ε}

/-! ## Evictions -/

/-- The evictions so far, with the notices that wait or are about to come back. -/
def Moment.evictions (m : Moment ε) : Nat :=
  m.world.core.mappings.stats.evicted +
    ((m.hand.roused ++ m.world.core.parking.sleepers).filter Sleeper.isNotice).length

/-- No eviction is forgotten. -/
theorem Move.evictions (h : Move p stray m m') (hw : m.Waiting) : m.evictions ≤ m'.evictions := by
  unfold Moment.evictions
  cases h with
  | revoke w k h map found =>
    obtain ⟨pending, rfl⟩ := Mappings.revoke?_eq_some found
    exact Nat.le_refl _
  | countEvicted w k => exact Nat.add_le_add_right (Nat.le_succ _) _
  | acquire w k h use map found =>
    obtain ⟨u, rfl, hr⟩ := Mappings.acquire?_replaces found
    exact Nat.le_of_eq (congrArg (· + _) (Mappings.Keeps.replaces hr rfl).evicted.symm)
  | put w k h map found =>
    obtain ⟨u, u', hput, hr⟩ := Mappings.put?_eq_some found
    have hregion := (RegionUse.put?_eq_some hput).2.1
    exact Nat.le_of_eq (congrArg (· + _) (Mappings.Keeps.replaces hr hregion).evicted.symm)
  | putLast w k h waiter map found =>
    obtain ⟨u, u', hput, hr⟩ := Mappings.put?_eq_some found
    have hregion := (RegionUse.put?_eq_some hput).2.1
    have hevicted := (Mappings.Keeps.replaces hr hregion).evicted
    have hperm := ((hw.unpark_perm waiter).filter Sleeper.isNotice).length_eq
    exact Nat.le_of_eq (congr (congrArg (· + ·) hevicted.symm) hperm.symm)
  | detach w k h use map cause found unused =>
    dsimp only
    rw [World.unpinRegion_core]
    exact Nat.le_of_eq (congrArg (· + _) (Mappings.Keeps.detach found).evicted.symm)
  | park w k h use map rest found used tears =>
    have hevicted : map.stats.evicted = w.core.mappings.stats.evicted :=
      (Mappings.Keeps.detach found).evicted
    show _ ≤ map.stats.evicted + (List.filter _ (_ ++ (_ ++ [_]))).length
    rw [hevicted, ← List.append_assoc, List.filter_append (p := Sleeper.isNotice) (_ ++ _),
      List.length_append]
    exact Nat.add_le_add_left (Nat.le_add_right _ _) _
  | wake w k waiter =>
    have hperm := ((hw.unpark_perm waiter).filter Sleeper.isNotice).length_eq
    exact Nat.le_of_eq (congrArg (_ + ·) hperm.symm)
  | resume w k s =>
    dsimp only
    rw [World.resume_core]
    obtain ⟨waiter, displaced, rest⟩ := s
    cases rest with
    | eviction r => exact Nat.le_of_eq (Nat.succ_add_eq_add_succ ..).symm
    | _ => exact Nat.le_refl _
  | install w k id rest displaced tasks found waits =>
    show _ ≤ _ + (List.filter _ (_ ++ (_ ++ [_]))).length
    rw [← List.append_assoc, List.filter_append (p := Sleeper.isNotice) (_ ++ _),
      List.length_append]
    exact Nat.add_le_add_left (Nat.le_add_right _ _) _
  | _ => exact Nat.le_refl _

namespace System

variable {s : System ε} {r : Handle}

/-- A call is a notice, or a map, or begins no eviction. -/
theorem evictions_cases (c : Call) (s : System ε) :
    (∃ r, c = .evict r) ∨ (∃ owner address length, c.map? = some (owner, address, length)) ∨
      s.takesBack? c = none ∧ s.evictions p c = 0 := by
  rcases hmap : c.map? with _ | ⟨owner, address, length⟩
  · by_cases hevict : ∃ r, c = .evict r
    · exact .inl hevict
    · have hnothing : s.takesBack? c = none := Option.eq_none_iff_forall_ne_some.2 fun r hr =>
        hevict ⟨r, (takesBack?_eq_some_iff.1 hr).1⟩
      exact .inr (.inr ⟨hnothing, by simp [evictions, losesRange, hnothing, hmap]⟩)
  · exact .inr (.inl ⟨owner, address, length, rfl⟩)

/-- **What counts as an eviction**: a map that loses its range, and a notice that takes a region
back, at once or when it comes back. -/
theorem evictions_perform (h : Reach p (fun _ => True) s) (c : Call) :
    (s.perform p c).world.core.evictions = s.world.core.evictions + s.evictions p c := by
  have hs := h.pendingHandles
  rcases evictions_cases (p := p) c s with ⟨r, rfl⟩ | ⟨owner, address, length, hmap⟩ | ⟨-, hzero⟩
  · rw [evictions_of_evict]
    exact World.evictions_evict p r hs
  · rw [(perform_core_of_map? p hmap s).2, evictions_of_map? p hmap]
    exact World.evictions_map p owner address length hs
  · refine Nat.le_antisymm (makes_perform p c hs).evictions ?_
    rw [hzero]
    exact (Moves.keeps (I := fun m => m.Accounted ∧ s.moment.evictions ≤ m.evictions)
      (fun _ _ hm ⟨ha, hle⟩ => ⟨hm.accounted ha, hle.trans (hm.evictions ha.waiting)⟩)
      (h.any_moves c) ⟨h.any_accounted, Nat.le_refl _⟩).2

/-- A notice that waits and did not before is that of a region that has just been taken back. -/
theorem notices_perform (h : Reach p (fun _ => True) s) {c : Call} {t : Sleeper}
    (ht : t ∈ (s.perform p c).world.core.parking.notices) :
    t ∈ s.world.core.parking.notices ∨ ∃ r, s.takesBack? c = some r ∧ t.torn? = some r := by
  have hs := h.pendingHandles
  rcases evictions_cases (p := p) c s with ⟨r, rfl⟩ | ⟨owner, address, length, hmap⟩ | ⟨-, hzero⟩
  · replace ht : t ∈ (s.world.evict p r).2.core.parking.notices := ht
    rcases hf : s.world.core.mappings.table.find? r with _ | use
    · have hd : s.world.core.mappings.detach? r = none := Option.map_eq_none_iff.2 hf
      rw [World.evict_unlisted p (hs ▸ List.not_mem_nil) hd] at ht
      exact .inl ht
    · rw [World.evict_core p hs hf] at ht
      split at ht
      · exact .inl ht
      · obtain ⟨hmem, hnotice⟩ := List.mem_filter.1 ht
        rcases List.mem_append.1 hmem with hmem | hmem
        · exact .inl (List.mem_filter.2 ⟨hmem, hnotice⟩)
        · obtain rfl := List.mem_singleton.1 hmem
          refine .inr ⟨r, takesBack?_eq_some_iff.2 ⟨rfl, use, hf⟩, ?_⟩
          exact congrArg some (h.any_accounted.keyed.regions.registered r use hf).1
  · rw [(perform_core_of_map? p hmap s).2] at ht
    obtain ⟨handles, m, hcore, -⟩ :=
      World.map_core p owner address length (Mappings.pending_eq_nil hs)
    rw [hcore] at ht
    exact .inl ht
  · exact .inl ((makes_perform p c hs).notices hzero ht)

end System

/-! ## Notices that have finished -/

/-- What is on record stays there. -/
theorem World.record_subset {α : Type} {f : Event → List α} {w w' : World ε}
    (h : w.ambient.history <:+ w'.ambient.history) {x : α} (hx : x ∈ w.record f) :
    x ∈ w'.record f := by
  obtain ⟨e, he, hfe⟩ := List.mem_flatMap.1 hx
  exact List.mem_flatMap.2 ⟨e, (h.filter _).subset he, hfe⟩

namespace Moment.Accounted

variable {r : Handle} {u : RegionUse}

/-- The pin of a region that is listed is on record, and not handed back. -/
theorem pin_of_use? (hi : m.Accounted) (hu : m.world.core.mappings.use? r = some u) :
    (r, u.region.base, u.region.table) ∈ m.world.record Event.pins ∧
      r ∉ m.world.record Event.unpins :=
  (hi.onRecord.owns_iff r u.region.base u.region.table).1 (.inl ⟨u, hu, rfl, rfl⟩)

/-- The pin of a region that is not listed any more has been handed back. -/
theorem unpinned (hi : m.Accounted) (hmap : m.hand.map = none)
    {pin : Handle × GpuAddr × PageTable} (hmade : pin ∈ m.world.record Event.pins)
    (hu : m.world.core.mappings.use? pin.1 = none) : pin.1 ∈ m.world.record Event.unpins := by
  by_contra hback
  rcases (hi.onRecord.owns_iff pin.1 pin.2.1 pin.2.2).2 ⟨hmade, hback⟩ with ⟨u, hu', -⟩ | hown
  · cases hu.symm.trans hu'
  · cases hmap.symm.trans hown

end Moment.Accounted

/-- What has become of the regions that notices have taken back: they are unpinned, or their notices
wait. -/
structure System.TakenBack (s : System ε) (taken : List Handle) : Prop where
  nodup : taken.Nodup
  ended : ∀ r ∈ taken, r ∈ s.world.record Event.unpins ∨
    ∃ t ∈ s.world.core.parking.notices, t.torn? = some r
  notices : ∀ t ∈ s.world.core.parking.notices, ∃ r ∈ taken, t.torn? = some r

namespace System.TakenBack

variable {s : System ε} {taken : List Handle} {r : Handle} {t : Sleeper}

theorem mem_teardowns (ht : t ∈ s.world.core.parking.notices) (hr : t.torn? = some r) :
    t ∈ s.teardowns r :=
  System.mem_teardowns.2 ⟨(List.mem_filter.1 ht).1, hr⟩

/-- The region of a notice that waits is not unpinned. -/
theorem not_unpinned (ha : s.moment.Accounted) (ht : t ∈ s.world.core.parking.notices)
    (hr : t.torn? = some r) : r ∉ s.world.record Event.unpins := by
  obtain ⟨u, hu, -⟩ := System.draining_of_mem_teardowns ha (mem_teardowns ht hr)
  exact (ha.pin_of_use? (ha.keyed.regions.use?_draining hu)).2

/-- What has been taken back is not registered. -/
theorem not_registered (hi : s.TakenBack taken) (ha : s.moment.Accounted) (hr : r ∈ taken) :
    s.world.core.mappings.table.find? r = none := by
  rcases hi.ended r hr with hback | ⟨t, ht, htorn⟩
  · by_contra hf
    obtain ⟨u, hf⟩ := Option.ne_none_iff_exists'.1 hf
    exact (ha.pin_of_use? (m := s.moment) (Mappings.use?_registered hf)).2 hback
  · obtain ⟨u, hu, -⟩ := System.draining_of_mem_teardowns ha (mem_teardowns ht htorn)
    exact (ha.keyed.regions.draining r u hu).2

/-- A notice that takes a region back unpins it, or waits. -/
theorem taken_evict (h : Reach p (fun _ => True) s) {use : RegionUse}
    (hf : s.world.core.mappings.table.find? r = some use) :
    r ∈ (s.perform p (.evict r)).world.record Event.unpins ∨
      ∃ t ∈ (s.perform p (.evict r)).world.core.parking.notices, t.torn? = some r := by
  have hh := (h.any_accounted.keyed.regions.registered r use hf).1
  have hcore : (s.perform p (.evict r)).world.core = _ := World.evict_core p h.pendingHandles hf
  by_cases hu : use.refs = 0
  · left
    rw [if_pos hu, hh] at hcore
    have hd : s.world.core.mappings.detach? r = some (use, { s.world.core.mappings with
        table := s.world.core.mappings.table.erase r }) := by
      rw [Mappings.detach?, hf]
      rfl
    have hmade := (h.any_accounted.pin_of_use? (Mappings.use?_registered hf)).1
    refine (h.call (.evict r) trivial).any_accounted.unpinned rfl
      (World.record_subset (h.any_moves _).history hmade) ?_
    show (s.perform p (.evict r)).world.core.mappings.use? r = none
    rw [hcore]
    exact (Mappings.sets_detach hd).self
  · right
    rw [if_neg hu] at hcore
    refine ⟨⟨s.world.core.parking.fresh.1, use.slot.occupant, .eviction use.region⟩, ?_,
      congrArg some hh⟩
    rw [hcore]
    exact List.mem_filter.2 ⟨List.mem_append_right _ (List.mem_singleton_self _), rfl⟩

/-- A notice that waits goes on waiting, or unpins its region. -/
theorem ended_perform (h : Reach p (fun _ => True) s) (c : Call)
    (ht : t ∈ s.world.core.parking.notices) (hr : t.torn? = some r) :
    r ∈ (s.perform p c).world.record Event.unpins ∨
      t ∈ (s.perform p c).world.core.parking.notices := by
  have hteardown := mem_teardowns ht hr
  obtain ⟨u, hu, -⟩ := System.draining_of_mem_teardowns h.any_accounted hteardown
  have hmade := (h.any_accounted.pin_of_use? (h.any_accounted.keyed.regions.use?_draining hu)).1
  obtain ⟨ha', hgone⟩ := System.gone_perform (h.any_moves c) h.any_accounted hteardown
  rcases hgone.there with hthere | hback
  · exact .inr (List.mem_filter.2 ⟨hthere, (List.mem_filter.1 ht).2⟩)
  · exact .inl (ha'.unpinned rfl (World.record_subset (h.any_moves c).history hmade)
      (hgone.use?_eq_none ha' (World.mem_back.1 hback)))

/-- What a call does to the regions that have been taken back before it. -/
theorem perform (h : Reach p (fun _ => True) s) (hi : s.TakenBack taken) (c : Call) :
    (s.perform p c).TakenBack ((s.takesBack? c).toList ++ taken) where
  nodup := by
    rcases hr : s.takesBack? c with _ | r
    · exact hi.nodup
    · refine List.nodup_cons.2 ⟨fun hmem => ?_, hi.nodup⟩
      obtain ⟨-, use, hf⟩ := System.takesBack?_eq_some_iff.1 hr
      cases (hi.not_registered h.any_accounted hmem).symm.trans hf
  ended r hr := by
    rcases List.mem_append.1 hr with hr | hr
    · obtain ⟨rfl, use, hf⟩ := System.takesBack?_eq_some_iff.1 (Option.mem_toList.1 hr)
      exact taken_evict h hf
    · rcases hi.ended r hr with hback | ⟨t, ht, htorn⟩
      · exact .inl (World.record_subset (h.any_moves c).history hback)
      · exact (ended_perform h c ht htorn).imp_right fun ht' => ⟨t, ht', htorn⟩
  notices t ht := by
    rcases System.notices_perform h ht with ht | ⟨r, htakes, htorn⟩
    · obtain ⟨r, hr, htorn⟩ := hi.notices t ht
      exact ⟨r, List.mem_append_right _ hr, htorn⟩
    · exact ⟨r, List.mem_append_left _ (Option.mem_toList.2 htakes), htorn⟩

/-- The notices that wait are those that have taken a region back which is not unpinned. -/
theorem notices_perm (hi : s.TakenBack taken) (ha : s.moment.Accounted) :
    s.world.core.parking.notices.length =
      taken.countP (· ∉ s.world.record Event.unpins) := by
  have honce : s.world.core.parking.notices.Pairwise Sleeper.Apart :=
    ha.tended.once.sublist List.filter_sublist
  have hnodup : (s.world.core.parking.notices.map Sleeper.torn?).Nodup := by
    refine List.pairwise_map.2 (honce.imp_of_mem fun {t t'} ht _ hapart he => ?_)
    obtain ⟨r, -, htorn⟩ := hi.notices t ht
    exact hapart r htorn (he ▸ htorn)
  have hperm : (s.world.core.parking.notices.map Sleeper.torn?).Perm
      ((taken.filter (· ∉ s.world.record Event.unpins)).map some) := by
    refine (List.perm_ext_iff_of_nodup hnodup
      ((hi.nodup.filter _).map (Option.some_injective _))).2 fun o => ?_
    simp only [List.mem_map, List.mem_filter, decide_eq_true_eq]
    constructor
    · rintro ⟨t, ht, rfl⟩
      obtain ⟨r, hr, htorn⟩ := hi.notices t ht
      exact ⟨r, ⟨hr, not_unpinned ha ht htorn⟩, htorn.symm⟩
    · rintro ⟨r, ⟨hr, hback⟩, rfl⟩
      obtain ⟨t, ht, htorn⟩ := (hi.ended r hr).resolve_left hback
      exact ⟨t, ht, htorn⟩
  have hlength := hperm.length_eq
  rwa [List.length_map, List.length_map, ← List.countP_eq_length_filter] at hlength

end System.TakenBack

/-! ## Runs -/

/-- The systems that a run leads to, with its calls and the systems in which they were made, the
last one first. -/
inductive Steps {ε : Type} (p : Platform ε) : List (System ε × Call) → System ε → Prop where
  | start {placement : Placement} {config : Config} {x : ε} {w : World ε}
      (h : Ambient.start placement config { outside := x } = (.ok w.core, w.ambient)) :
      Steps p [] { world := w }
  | call {steps : List (System ε × Call)} {s : System ε} (before : Steps p steps s) (c : Call) :
      Steps p ((s, c) :: steps) (s.perform p c)
  | outside {steps : List (System ε × Call)} {s : System ε} (before : Steps p steps s) (x : ε) :
      Steps p steps { s with world := s.world.setOutside x }

namespace Steps

variable {steps : List (System ε × Call)} {s : System ε}

theorem reach (h : Steps p steps s) : Reach p (fun _ => True) s := by
  induction h with
  | start h => exact .start h
  | call _ c ih => exact .call ih c trivial
  | outside _ x ih => exact .outside ih x

/-- The regions that notices have taken back. -/
theorem takenBack (h : Steps p steps s) :
    s.TakenBack (steps.filterMap fun e => e.1.takesBack? e.2) := by
  induction h with
  | start h =>
    obtain ⟨rfl, -⟩ := Ambient.start_ok h
    exact ⟨List.nodup_nil, nofun, nofun⟩
  | @call steps s before c ih =>
    have hperform := ih.perform before.reach c
    rw [List.filterMap_cons]
    cases hr : s.takesBack? c <;> simpa [hr] using hperform
  | outside _ x ih => exact { ih with }

/-- Every eviction is that of a region taken back or of a map that has lost its range. -/
theorem evictions (h : Steps p steps s) :
    s.world.core.evictions = (steps.filterMap fun e => e.1.takesBack? e.2).length +
      steps.countP fun e => e.1.losesRange p e.2 := by
  induction h with
  | start h =>
    obtain ⟨rfl, -⟩ := Ambient.start_ok h
    rfl
  | @call steps s before c ih =>
    rw [System.evictions_perform before.reach, ih, System.evictions, List.filterMap_cons,
      List.countP_cons]
    cases s.takesBack? c <;> cases s.losesRange p c <;> simp <;> omega
  | outside _ x ih => exact ih

end Steps

end PeerDma
