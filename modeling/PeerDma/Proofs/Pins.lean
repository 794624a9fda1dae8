import PeerDma.Proofs.Conservation
import PeerDma.Proofs.TakenBack

/-!
# Pins are balanced

A pin is handed back by the map that made it, by the teardown of its region, or by the call that the
teardown has parked. Whatever the pager answers, every pin that has not been handed back is that of
one region, registered or draining, and the count of maps says what has become of the others.

* `PinsMatch`, `Move.pinsMatch`: pins are handed back once at most, as they were made.
* `Mappings.listed`, `Move.totalled`: the count of maps is that of regions, listed or released.
* `Moment.Pinned`: both, at every moment of a run.
* `Steps.pins_balanced`: where the pins are, after any run.
-/

namespace PeerDma

variable {ε : Type} {p : Platform ε} {stray : Prop} {m m' : Moment ε}

/-! ## Pins on record -/

/-- The pin that an event says has been handed back. -/
def Event.handsBack : Event → List (Handle × GpuAddr × PageTable)
  | unpinned handle base table _ => [(handle, base, table)]
  | _ => []

/-- Every pin has a handle of its own and is handed back once at most, as it was made. -/
structure PinsMatch (made handed : List (Handle × GpuAddr × PageTable)) : Prop where
  nodup : (made.map Prod.fst).Nodup
  once : (handed.map Prod.fst).Nodup
  same : ∀ x ∈ handed, x ∈ made

namespace PinsMatch

variable {made handed : List (Handle × GpuAddr × PageTable)} {x : Handle × GpuAddr × PageTable}

theorem pin (hi : PinsMatch made handed) (hnew : x.1 ∉ made.map Prod.fst) :
    PinsMatch (x :: made) handed where
  nodup := List.nodup_cons.2 ⟨hnew, hi.nodup⟩
  once := hi.once
  same y hy := List.mem_cons_of_mem _ (hi.same y hy)

theorem unpin (hi : PinsMatch made handed) (hmade : x ∈ made)
    (hnew : x.1 ∉ handed.map Prod.fst) : PinsMatch made (x :: handed) where
  nodup := hi.nodup
  once := List.nodup_cons.2 ⟨hnew, hi.once⟩
  same := List.forall_mem_cons.2 ⟨hmade, hi.same⟩

/-- A pin whose handle has been handed back has been handed back itself. -/
theorem mem_handed (hi : PinsMatch made handed) (hmade : x ∈ made)
    (hback : x.1 ∈ handed.map Prod.fst) : x ∈ handed := by
  obtain ⟨other, hother, he⟩ := List.mem_map.1 hback
  rwa [← List.inj_on_of_nodup_map hi.nodup (hi.same other hother) hmade he]

end PinsMatch

theorem World.record_unpins (w : World ε) :
    w.record Event.unpins = (w.record Event.handsBack).map Prod.fst := by
  unfold record
  rw [List.map_flatMap]
  exact List.flatMap_congr fun e _ => by cases e <;> rfl

/-- By what is on record, every pin is handed back once at most, as it was made. -/
def Moment.PinsMatch (m : Moment ε) : Prop :=
  PeerDma.PinsMatch (m.world.record Event.pins) (m.world.record Event.handsBack)

theorem Move.pinsMatch (h : Move p stray m m') (ha : m.Accounted) (hi : m.PinsMatch) :
    m'.PinsMatch := by
  obtain ⟨⟨hk, -⟩, -, ht, -, ho, -⟩ := ha
  have hunpins := World.record_unpins m.world
  unfold Moment.PinsMatch at hi ⊢
  unfold Moment.OnRecord at ho
  rw [hunpins] at ho
  cases h with
  | log w k e he =>
    rw [World.record_log _ _ he, World.record_log _ _ he]
    exact hi
  | pinned w k h base table =>
    refine hi.pin fun hmem => ?_
    obtain ⟨⟨other, pin⟩, hpin, he⟩ := List.mem_map.1 hmem
    obtain rfl : other = h := he
    exact (ho.fresh _ rfl).1 pin hpin
  | rollBack w k h base table cause =>
    obtain ⟨hmade, hback⟩ := (ho.owns_iff h base table).1 (.inr rfl)
    exact hi.unpin hmade hback
  | detach w k h use map cause found unused =>
    have hf := (Mappings.detach?_eq_some found).1
    obtain ⟨hmade, hback⟩ := (ho.owns_iff h use.region.base use.region.table).1
      (.inl ⟨use, Mappings.use?_registered hf, rfl, rfl⟩)
    dsimp only
    rw [World.unpinRegion_record, World.unpinRegion_record, (hk.registered h use hf).1]
    exact hi.unpin hmade hback
  | resume w k s =>
    dsimp only
    rw [World.resume_record, World.resume_record]
    cases hr : s.rest.region? with
    | none =>
      rw [Rest.unpinned?_of_none hr]
      exact hi
    | some r =>
      obtain ⟨cause, he⟩ := Rest.unpinned?_of_some hr
      obtain ⟨u, hu, hregion, -⟩ := ht.roused s (List.mem_cons_self ..) r hr
      obtain ⟨hmade, hback⟩ := (ho.owns_iff r.handle r.base r.table).1
        (.inl ⟨u, hk.use?_draining hu, by rw [hregion], by rw [hregion]⟩)
      rw [he]
      exact hi.unpin hmade hback
  | release w k pins =>
    dsimp only
    rw [World.release_record p rfl, World.release_record p rfl]
    exact hi
  | _ => exact hi

/-! ## Regions that are listed -/

namespace Mappings

/-- The handles of all regions, registered or draining. -/
def listed (m : Mappings) : List Handle := m.table.keys ++ m.draining.entries.map Prod.fst

/-- All regions, registered or draining. -/
def regions (m : Mappings) : List Region :=
  (m.table.toList ++ m.draining.entries).map fun e => e.2.region

theorem length_listed (m : Mappings) : m.listed.length = m.table.size + m.draining.size := by
  unfold listed Table.size
  rw [List.length_append, Sharded.length_keys, List.length_map]

theorem length_regions (m : Mappings) : m.regions.length = m.table.size + m.draining.size := by
  rw [← length_listed]
  simp [regions, listed, Sharded.keys]

variable {m m' : Mappings} {h : Handle} {u u' : RegionUse}

theorem mem_listed : h ∈ m.listed ↔ ∃ u, m.use? h = some u := by
  have hdraining : h ∈ m.draining.entries.map Prod.fst ↔ ∃ u, m.draining.find? h = some u := by
    simp [Table.find?_eq_some_iff]
  unfold listed
  rw [List.mem_append, Sharded.mem_keys, hdraining]
  unfold use?
  cases m.table.find? h <;> simp

namespace Keyed

theorem nodup_listed (hk : m.Keyed) : m.listed.Nodup := by
  have hkeys : m.table.keys.Nodup := by
    refine List.Nodup.map_on (fun x hx y hy he => ?_) m.table.nodup_toList
    obtain ⟨h, u⟩ := x
    obtain ⟨h', u'⟩ := y
    obtain rfl : h = h' := he
    rw [Sharded.mem_toList_iff] at hx hy
    rw [Option.some.inj (hx.symm.trans hy)]
  refine List.nodup_append'.2 ⟨hkeys, m.draining.nodup, fun h hkey hd => ?_⟩
  obtain ⟨u, hf⟩ := Sharded.mem_keys.1 hkey
  obtain ⟨⟨other, u'⟩, he, rfl⟩ := List.mem_map.1 hd
  rw [(hk.draining other u' (Table.find?_eq_some_iff.2 he)).2] at hf
  cases hf

/-- Regions are listed under their handles. -/
theorem map_handle (hk : m.Keyed) : m.regions.map Region.handle = m.listed := by
  unfold regions listed Sharded.keys
  rw [List.map_map, List.map_append]
  congr 1
  · exact List.map_congr_left fun e he => (hk.registered e.1 e.2 (Sharded.mem_toList_iff.1 he)).1
  · exact List.map_congr_left fun e he =>
      (hk.draining e.1 e.2 (Table.find?_eq_some_iff.2 he)).1.1

theorem mem_regions (hk : m.Keyed) {r : Region} :
    r ∈ m.regions ↔ ∃ u, m.use? r.handle = some u ∧ u.region = r := by
  unfold regions
  rw [List.mem_map]
  constructor
  · rintro ⟨⟨h, u⟩, he, rfl⟩
    rcases List.mem_append.1 he with he | he
    · have hf := Sharded.mem_toList_iff.1 he
      exact ⟨u, (hk.registered h u hf).1.symm ▸ use?_registered hf, rfl⟩
    · have hf := Table.find?_eq_some_iff.2 he
      exact ⟨u, (hk.draining h u hf).1.1.symm ▸ hk.use?_draining hf, rfl⟩
  · rintro ⟨u, hu, rfl⟩
    refine ⟨(u.region.handle, u), List.mem_append.2 ?_, rfl⟩
    exact (use?_eq_some_iff.1 hu).imp Sharded.mem_toList_iff.2
      fun hd => Table.find?_eq_some_iff.1 hd.2

end Keyed

/-- A handle comes to name a region. -/
theorem Sets.listed_cons (hs : Sets m m' h (some u)) (hk : m.Keyed) (hk' : m'.Keyed)
    (hn : m.use? h = none) : m'.listed.Perm (h :: m.listed) := by
  have hnew : h ∉ m.listed := by simp [mem_listed, hn]
  refine (List.perm_ext_iff_of_nodup hk'.nodup_listed
    (List.nodup_cons.2 ⟨hnew, hk.nodup_listed⟩)).2 fun other => ?_
  rw [List.mem_cons, mem_listed, mem_listed, hs other]
  by_cases he : other = h <;> simp [he]

/-- A region changes. -/
theorem Sets.listed_perm (hs : Sets m m' h (some u')) (hk : m.Keyed) (hk' : m'.Keyed)
    (hu : m.use? h = some u) : m'.listed.Perm m.listed := by
  refine (List.perm_ext_iff_of_nodup hk'.nodup_listed hk.nodup_listed).2 fun other => ?_
  rw [mem_listed, mem_listed, hs other]
  by_cases he : other = h <;> simp [he, hu]

/-- A handle comes to name nothing. -/
theorem Sets.perm_cons_listed (hs : Sets m m' h none) (hk : m.Keyed) (hk' : m'.Keyed)
    (hu : m.use? h = some u) : m.listed.Perm (h :: m'.listed) := by
  refine listed_cons (u := u) (fun other => ?_) hk' hk hs.self
  rw [hs other]
  split
  · next he => rw [he, hu]
  · rfl

end Mappings

/-- The maps that have made a region are as many as the regions that are listed or have been
released. -/
def Moment.Totalled (m : Moment ε) : Prop :=
  m.world.core.mappings.stats.mapped =
    m.world.core.mappings.listed.length + m.world.core.mappings.stats.released

theorem Rest.stats_forget {rest : Rest} {r : Region} (h : rest.region? = some r) (m : Mappings) :
    (rest.forget m).stats.mapped = m.stats.mapped ∧
      (rest.forget m).stats.released = m.stats.released + 1 := by
  cases rest with
  | teardown region cause => exact ⟨rfl, rfl⟩
  | eviction region => exact ⟨rfl, rfl⟩
  | wait => cases h
  | copy task => cases h

namespace Mappings

variable {m m' : Mappings} {h : Handle} {u u' : RegionUse}

/-- The maps that have made a region are those of listed regions and of released ones. -/
def Totalled (m : Mappings) : Prop := m.stats.mapped = m.listed.length + m.stats.released

/-- The same handles are listed as before. -/
theorem Totalled.of_perm (hi : m.Totalled) (hlisted : m'.listed.Perm m.listed)
    (hstats : m'.stats = m.stats) : m'.Totalled := by
  unfold Totalled
  rw [hstats, hlisted.length_eq]
  exact hi

/-- A region is released. -/
theorem Totalled.released (hi : m.Totalled) (hlisted : m.listed.Perm (h :: m'.listed))
    (hmapped : m'.stats.mapped = m.stats.mapped)
    (hreleased : m'.stats.released = m.stats.released + 1) : m'.Totalled := by
  have hlength := hlisted.length_eq
  rw [List.length_cons] at hlength
  unfold Totalled at hi ⊢
  omega

/-- A region is registered. -/
theorem Totalled.mapped (hi : m.Totalled) (hlisted : m'.listed.Perm (h :: m.listed))
    (hmapped : m'.stats.mapped = m.stats.mapped + 1)
    (hreleased : m'.stats.released = m.stats.released) : m'.Totalled := by
  have hlength := hlisted.length_eq
  rw [List.length_cons] at hlength
  unfold Totalled at hi ⊢
  omega

/-- The use of a region changes. -/
theorem Totalled.replaces (hi : m.Totalled) (hk : m.Keyed) (hk' : m'.Keyed)
    (hr : Replaces m m' h u u') : m'.Totalled :=
  hi.of_perm (hr.sets.listed_perm hk hk' hr.use?) <| by
    obtain ⟨-, rfl⟩ | ⟨-, -, rfl⟩ := hr.cases <;> rfl

end Mappings

theorem Move.totalled (h : Move p stray m m') (ha : m.Accounted) (hi : m.Totalled) :
    m'.Totalled := by
  have hk' := (h.keyed ha.tended ha.keyed).regions
  obtain ⟨⟨hk, hmap⟩, -, ht, -, -, -⟩ := ha
  replace hi : m.world.core.mappings.Totalled := hi
  show m'.world.core.mappings.Totalled
  cases h with
  | revoke w k h map found =>
    obtain ⟨pending, rfl⟩ := Mappings.revoke?_eq_some found
    exact hi
  | register w k r =>
    have hlisted := (w.core.mappings.sets_register r).listed_cons hk { hk' with } (hmap _ rfl).2
    exact hi.mapped hlisted rfl rfl
  | acquire w k h use map found =>
    obtain ⟨u, -, hr⟩ := Mappings.acquire?_replaces found
    exact hi.replaces hk hk' hr
  | put w k h map found =>
    obtain ⟨u, u', -, hr⟩ := Mappings.put?_eq_some found
    exact hi.replaces hk hk' hr
  | putLast w k h waiter map found =>
    obtain ⟨u, u', -, hr⟩ := Mappings.put?_eq_some found
    exact hi.replaces hk hk' hr
  | detach w k h use map cause found unused =>
    obtain ⟨hf, rfl⟩ := Mappings.detach?_eq_some found
    dsimp only at hk' ⊢
    rw [World.unpinRegion_core, (hk.registered h use hf).1] at hk' ⊢
    exact hi.released ((Mappings.sets_detach found).perm_cons_listed hk hk'
      (Mappings.use?_registered hf)) rfl rfl
  | park w k h use map rest found used tears =>
    obtain ⟨hf, rfl⟩ := Mappings.detach?_eq_some found
    exact hi.of_perm ((hk.sets_park (v := { use with slot := ⟨some w.core.parking.fresh.1⟩ }) found
      rfl).listed_perm hk hk' (Mappings.use?_registered hf)) rfl
  | resume w k s =>
    dsimp only at hk' ⊢
    rw [World.resume_core] at hk' ⊢
    cases hr : s.rest.region? with
    | none =>
      rw [Rest.forget_of_none _ hr]
      exact hi
    | some r =>
      obtain ⟨u, hu, -, -⟩ := ht.roused s (List.mem_cons_self ..) r hr
      obtain ⟨hmapped, hreleased⟩ := Rest.stats_forget hr w.core.mappings
      exact hi.released ((ht.sets_resume hk hr).perm_cons_listed hk hk' (hk.use?_draining hu))
        hmapped hreleased
  | _ => exact hi

/-! ## Between calls -/

/-- The pin of a region. -/
def Region.pin (r : Region) : Handle × GpuAddr × PageTable := (r.handle, r.base, r.table)

namespace World

theorem record_pins (w : World ε) :
    w.record Event.pins = w.ambient.history.flatMap Event.pins :=
  Event.flatMap_filter (fun e he => by cases e <;> first | rfl | cases he) _

theorem record_handsBack (w : World ε) :
    w.record Event.handsBack = w.ambient.history.flatMap Event.handsBack :=
  Event.flatMap_filter (fun e he => by cases e <;> first | rfl | cases he) _

theorem record_unpins_eq (w : World ε) :
    w.record Event.unpins = w.ambient.history.flatMap Event.unpins :=
  Event.flatMap_filter (fun e he => by cases e <;> first | rfl | cases he) _

end World

/-- The pins that have not been handed back are those of the regions that are listed. -/
theorem Moment.Accounted.pins_perm (ha : m.Accounted) (hmap : m.hand.map = none)
    (hi : m.PinsMatch) : (m.world.record Event.pins).Perm
      (m.world.record Event.handsBack ++ m.world.core.mappings.regions.map Region.pin) := by
  have hk := ha.keyed.regions
  have hhandles : (m.world.core.mappings.regions.map Region.pin).map Prod.fst =
      m.world.core.mappings.listed := by
    rw [List.map_map]
    exact hk.map_handle
  have hunpins := m.world.record_unpins
  -- A region that is listed has not been unpinned.
  have hapart : ∀ h ∈ (m.world.record Event.handsBack).map Prod.fst,
      h ∉ m.world.core.mappings.listed := by
    intro h hback hlisted
    obtain ⟨u, hu⟩ := Mappings.mem_listed.1 hlisted
    exact (ha.pin_of_use? hu).2 (hunpins ▸ hback)
  have hnodup : (m.world.record Event.handsBack ++
      m.world.core.mappings.regions.map Region.pin).Nodup := by
    refine List.Nodup.of_map Prod.fst ?_
    rw [List.map_append, hhandles]
    exact List.nodup_append'.2 ⟨hi.once, hk.nodup_listed, hapart⟩
  refine (List.perm_ext_iff_of_nodup hi.nodup.of_map hnodup).2 fun x => ?_
  obtain ⟨h, base, table⟩ := x
  rw [List.mem_append]
  constructor
  · intro hmade
    by_cases hback : h ∈ m.world.record Event.unpins
    · exact .inl (hi.mem_handed hmade (hunpins ▸ hback))
    · rcases (ha.onRecord.owns_iff h base table).2 ⟨hmade, hback⟩ with ⟨u, hu, rfl, rfl⟩ | hown
      · have hh := (hk.use? hu).1
        refine .inr (List.mem_map.2 ⟨u.region, hk.mem_regions.2 ⟨u, hh.symm ▸ hu, rfl⟩, ?_⟩)
        rw [Region.pin, hh]
      · cases hmap.symm.trans hown
  · rintro (hback | hregion)
    · exact hi.same _ hback
    · obtain ⟨r, hr, he⟩ := List.mem_map.1 hregion
      obtain ⟨u, hu, rfl⟩ := hk.mem_regions.1 hr
      exact he ▸ (ha.pin_of_use? hu).1

/-- The regions that drain are those of the teardowns that wait. -/
theorem Mappings.Tended.draining_perm {m : Mappings} {asleep : List Sleeper}
    (hi : m.Tended [] asleep) (hk : m.Keyed) :
    (m.draining.entries.map Prod.fst).Perm (asleep.filterMap Sleeper.torn?) := by
  have hnodup : (asleep.filterMap Sleeper.torn?).Nodup := by
    have honce : asleep.Pairwise Sleeper.Apart := hi.once
    refine honce.filterMap _ fun s s' hapart h hs h' hs' he => ?_
    exact hapart h hs (he ▸ hs')
  refine (List.perm_ext_iff_of_nodup m.draining.nodup hnodup).2 fun h => ?_
  rw [List.mem_map, List.mem_filterMap]
  constructor
  · rintro ⟨⟨h, u⟩, he, rfl⟩
    have hf := Table.find?_eq_some_iff.2 he
    obtain ⟨s, hs, hr⟩ := hi.torn h u hf
    exact ⟨s, hs, (Sleeper.torn?_of_region? hr).trans (congrArg some (hk.draining h u hf).1.1)⟩
  · rintro ⟨s, hs, ht⟩
    obtain ⟨r, hr, rfl⟩ := Option.map_eq_some_iff.1 ht
    obtain ⟨-, u, hu, -⟩ := hi.parked s hs r hr
    exact ⟨(r.handle, u), Table.find?_eq_some_iff.1 hu, rfl⟩

/-- Pins are accounted for, now and at every moment before. -/
structure Moment.Pinned (m : Moment ε) : Prop where
  accounted : m.Accounted
  once : m.PinsMatch
  totalled : m.Totalled
  past : ∀ older, older <:+ m.world.course →
    PeerDma.PinsMatch (older.flatMap Event.pins) (older.flatMap Event.handsBack)

namespace Event

variable {history : List Event}

theorem pins_filter : (history.filter bears).flatMap pins = history.flatMap pins :=
  flatMap_filter (fun e he => by cases e <;> first | rfl | cases he) _

theorem handsBack_filter : (history.filter bears).flatMap handsBack = history.flatMap handsBack :=
  flatMap_filter (fun e he => by cases e <;> first | rfl | cases he) _

end Event

theorem Move.pinned_of (h : Move p stray m m') (hi : m.Pinned) : m'.Pinned where
  accounted := h.accounted hi.accounted
  once := h.pinsMatch hi.accounted hi.once
  totalled := h.totalled hi.accounted hi.totalled
  past := by
    refine h.always ?_ hi.past
    have hnow := h.pinsMatch hi.accounted hi.once
    unfold Moment.PinsMatch at hnow
    rw [World.record_pins, World.record_handsBack] at hnow
    unfold World.course
    rw [Event.pins_filter, Event.handsBack_filter]
    exact hnow

theorem Moment.pinned_fresh (placement : Placement) (config : Config) (x : ε) :
    Moment.Pinned ⟨.fresh placement config x, {}⟩ where
  accounted := Moment.accounted_fresh placement config x
  once := ⟨List.nodup_nil, List.nodup_nil, nofun⟩
  totalled := by
    have hempty : (World.fresh placement config x).core.mappings.listed = [] :=
      List.append_eq_nil_iff.2 ⟨congrArg (List.map Prod.fst) (Sharded.toList_empty ..), rfl⟩
    show 0 = (World.fresh placement config x).core.mappings.listed.length + 0
    rw [hempty]
    rfl
  past older hsuffix := by
    obtain rfl : older = [] := List.suffix_nil.1 hsuffix
    exact ⟨List.nodup_nil, List.nodup_nil, nofun⟩

theorem Reach.pinned {s : System ε} (h : Reach p (fun _ => True) s) : s.moment.Pinned :=
  h.any_invariant Moment.pinned_fresh fun _ _ hm hi => hm.pinned_of hi

/-- **Pins are balanced.** After any run, whatever the pager answers:

* The pins that have not been handed back are those of the regions that are registered or draining,
  one of each, and the regions that drain are those of the teardowns that are parked.
* At every moment, each pin has had a handle of its own, and has been handed back once at most,
  after it was made and as it was made.
* No map is in progress.
* The maps that have made a region are as many as the regions that are registered, draining and
  released.
* The evictions are the notices that have taken a registered region back and unpinned it, and the
  maps that have failed because the device took their range back. -/
theorem Steps.pins_balanced {steps : List (System ε × Call)} {s : System ε} (h : Steps p steps s) :
    let mappings := s.world.core.mappings
    let history := s.world.ambient.history
    (↑(history.flatMap Event.pins) : Multiset (Handle × GpuAddr × PageTable)) =
        ↑(history.flatMap Event.handsBack) + ↑(mappings.regions.map Region.pin) ∧
      (mappings.draining.entries.map Prod.fst).Perm
        (s.world.core.parking.sleepers.filterMap Sleeper.torn?) ∧
      (∀ older, older <:+ history →
        PinsMatch (older.flatMap Event.pins) (older.flatMap Event.handsBack)) ∧
      mappings.pending = [] ∧
      mappings.stats.mapped = mappings.size + mappings.draining.size + mappings.stats.released ∧
      mappings.stats.evicted =
        (steps.filterMap fun e => e.1.takesBack? e.2).countP
            (· ∈ history.flatMap Event.unpins) +
          steps.countP fun e => e.1.losesRange p e.2 := by
  intro mappings history
  have hi := h.reach.pinned
  refine ⟨?_, hi.accounted.tended.draining_perm hi.accounted.keyed.regions, fun older hsuffix => ?_,
    Mappings.pending_eq_nil h.reach.pendingHandles, ?_, ?_⟩
  · have hperm := hi.accounted.pins_perm rfl hi.once
    rw [World.record_pins, World.record_handsBack] at hperm
    rw [Multiset.coe_add]
    exact Multiset.coe_eq_coe.2 hperm
  · have hpast := hi.past _ (hsuffix.filter _)
    rwa [Event.pins_filter, Event.handsBack_filter] at hpast
  · exact hi.totalled.trans (congrArg (· + _) (Mappings.length_listed _))
  · have hevictions := h.evictions
    have hwaiting := h.takenBack.notices_perm hi.accounted
    rw [World.record_unpins_eq] at hwaiting
    have hsplit := List.length_eq_countP_add_countP
      (· ∈ s.world.ambient.history.flatMap Event.unpins)
      (l := steps.filterMap fun e => e.1.takesBack? e.2)
    unfold Core.evictions at hevictions
    simp only [decide_eq_true_eq] at hsplit
    dsimp only [mappings, history]
    omega

/-- A bench whose pager revokes its next pin while it is being made, and fails its next unpin. -/
def Bench.taking : Bench := { pager := { revokeNext := true, failUnpin := some .badAddress } }

/-- On that bench: a map that loses its range, a notice for a region in use, which waits, and a
notice for one that is not in use, which unpins it at once. -/
def Bench.takenBack : System Bench :=
  System.mk (.fresh {} {} taking) []
    |>.perform platform (.map ⟨1⟩ ⟨0x10000⟩ 0x10000)
    |>.perform platform (.map ⟨1⟩ ⟨0x20000⟩ 0x10000)
    |>.perform platform (.acquire ⟨2⟩)
    |>.perform platform (.evict ⟨2⟩)
    |>.perform platform (.map ⟨1⟩ ⟨0x40000⟩ 0x10000)
    |>.perform platform (.evict ⟨3⟩)

/-- The region whose notice waits is the one that drains, and its pin is the one not handed back. -/
theorem Steps.pins_balanced_takenBack :
    ∃ steps, Steps Bench.platform steps Bench.takenBack ∧
      (steps.filterMap fun e => e.1.takesBack? e.2) = [⟨3⟩, ⟨2⟩] ∧
      (steps.countP fun e => e.1.losesRange Bench.platform e.2) = 1 ∧
      (Bench.takenBack.world.ambient.history.flatMap Event.pins).map Prod.fst =
        [⟨3⟩, ⟨2⟩, ⟨1⟩] ∧
      Bench.takenBack.world.ambient.history.flatMap Event.unpins = [⟨3⟩, ⟨1⟩] ∧
      (Bench.takenBack.world.core.parking.sleepers.filterMap Sleeper.torn?) = [⟨2⟩] ∧
      Bench.takenBack.world.core.mappings.draining.entries.map Prod.fst = [⟨2⟩] ∧
      Bench.takenBack.world.core.mappings.stats.evicted = 2 := by
  have h : Steps Bench.platform _ Bench.takenBack :=
    .call (.call (.call (.call (.call (.call (@Steps.start _ _ {} {} Bench.taking _ rfl) _) _) _) _)
      _) _
  obtain ⟨-, hdraining, -, -, -, hevicted⟩ := pins_balanced h
  have hsleepers :
      (Bench.takenBack.world.core.parking.sleepers.filterMap Sleeper.torn?) = [⟨2⟩] := by
    decide +kernel
  refine ⟨_, h, by decide +kernel, by decide +kernel, by decide +kernel, by decide +kernel,
    hsleepers, List.perm_singleton.1 (hsleepers ▸ hdraining), hevicted.trans (by decide +kernel)⟩

end PeerDma
