import PeerDma.Proofs.Waiters

/-!
# Teardowns that wait

A region that is out of the table and still in use is draining. Its teardown is parked, in the
region's own slot, until the last reference is given back; from then on the teardown is roused, and
the region stays on the list only until the teardown has come back and unpinned it.

* `Mappings.Keyed`: regions are listed under their own handles, registered or draining but not both.
* `Mappings.Tended`: every draining region has one teardown, parked while the region is in use.
* `Move.keyed`, `Move.tended`: each move keeps both.
-/

namespace PeerDma

/-! ## Handles -/

namespace Mappings

/-- Regions are listed once, under handles that have been given out. -/
structure Keyed (m : Mappings) : Prop where
  registered : ∀ h u, m.table.find? h = some u → u.region.handle = h ∧ h.id < m.handles.next
  draining : ∀ h u, m.draining.find? h = some u →
    (u.region.handle = h ∧ h.id < m.handles.next) ∧ m.table.find? h = none

variable {m m' : Mappings} {h : Handle} {u u' : RegionUse}

namespace Keyed

theorem use?_draining (hk : m.Keyed) (hf : m.draining.find? h = some u) : m.use? h = some u :=
  use?_eq_some_iff.2 (.inr ⟨(hk.draining h u hf).2, hf⟩)

theorem draining_of_registered (hk : m.Keyed) (hf : m.table.find? h = some u) :
    m.draining.find? h = none := by
  by_contra hd
  obtain ⟨u', hd⟩ := Option.ne_none_iff_exists'.1 hd
  rw [(hk.draining h u' hd).2] at hf
  cases hf

theorem use? (hk : m.Keyed) (hu : m.use? h = some u) :
    u.region.handle = h ∧ h.id < m.handles.next := by
  rcases use?_eq_some_iff.1 hu with hf | ⟨-, hf⟩
  · exact hk.registered h u hf
  · exact (hk.draining h u hf).1

/-- A handle that has not been given out names nothing. -/
theorem use?_eq_none (hk : m.Keyed) (hh : m.handles.next ≤ h.id) : m.use? h = none := by
  by_contra hu
  obtain ⟨u, hu⟩ := Option.ne_none_iff_exists'.1 hu
  have := (hk.use? hu).2
  omega

/-! ### What operations keep -/

theorem begin (hk : m.Keyed) : m.begin.2.Keyed where
  registered h u hf := (hk.registered h u hf).imp_right Nat.lt_succ_of_lt
  draining h u hf := (hk.draining h u hf).imp_left fun hd => hd.imp_right Nat.lt_succ_of_lt

theorem register (hk : m.Keyed) {r : Region} (hr : r.handle.id < m.handles.next)
    (hnew : m.use? r.handle = none) : (m.register r).Keyed := by
  obtain ⟨htable, hdraining⟩ := Option.or_eq_none_iff.1 hnew
  constructor <;> intro h u hf
  · replace hf : (m.table.insert r.handle { region := r }).find? h = some u := hf
    rw [Sharded.find?_insert] at hf
    split at hf
    · next he =>
      obtain rfl := Option.some.inj hf
      exact ⟨he.symm, he ▸ hr⟩
    · exact hk.registered h u hf
  · obtain ⟨hh, hnone⟩ := hk.draining h u hf
    refine ⟨hh, (Sharded.find?_insert ..).trans ?_⟩
    rw [if_neg, hnone]
    rintro rfl
    cases hdraining.symm.trans hf

theorem replaces (hk : m.Keyed) (hr : Replaces m m' h u u') (hregion : u'.region = u.region) :
    m'.Keyed := by
  obtain ⟨hf, rfl⟩ | ⟨hn, hf, rfl⟩ := hr.cases
  · constructor <;> intro other v hv <;> dsimp only at hv ⊢
    · rw [Sharded.find?_insert] at hv
      split at hv
      · next he =>
        obtain rfl := Option.some.inj hv
        rw [hregion, he]
        exact hk.registered h u hf
      · exact hk.registered other v hv
    · obtain ⟨hh, hnone⟩ := hk.draining other v hv
      refine ⟨hh, ?_⟩
      rw [Sharded.find?_insert, if_neg, hnone]
      rintro rfl
      cases hnone.symm.trans hf
  · constructor <;> intro other v hv <;> dsimp only at hv ⊢
    · exact hk.registered other v hv
    · rw [Table.find?_insert] at hv
      split at hv
      · next he =>
        obtain rfl := Option.some.inj hv
        rw [hregion, he]
        exact hk.draining h u hf
      · exact hk.draining other v hv

theorem detach (hk : m.Keyed) (hd : m.detach? h = some (u, m')) : m'.Keyed := by
  obtain ⟨hf, rfl⟩ := detach?_eq_some hd
  constructor <;> intro other v hv <;> dsimp only at hv ⊢
  · rw [Sharded.find?_erase] at hv
    split at hv
    · cases hv
    · exact hk.registered other v hv
  · obtain ⟨hh, hnone⟩ := hk.draining other v hv
    refine ⟨hh, ?_⟩
    rw [Sharded.find?_erase, hnone, ite_self]

theorem drain (hk : m.Keyed) (hu : u.region.handle.id < m.handles.next)
    (hf : m.table.find? u.region.handle = none) : (m.drain u).Keyed where
  registered := hk.registered
  draining h v hv := by
    replace hv : (m.draining.insert u.region.handle u).find? h = some v := hv
    rw [Table.find?_insert] at hv
    split at hv
    · next he =>
      obtain rfl := Option.some.inj hv
      rw [he]
      exact ⟨⟨rfl, hu⟩, hf⟩
    · exact hk.draining h v hv

theorem forget (hk : m.Keyed) (h : Handle) : (m.forget h).Keyed where
  registered := hk.registered
  draining other v hv := by
    replace hv : (m.draining.erase h).find? other = some v := hv
    rw [Table.find?_erase] at hv
    split at hv
    · cases hv
    · exact hk.draining other v hv

/-! ### What handles name afterwards -/

theorem sets_park {v : RegionUse} (hk : m.Keyed) (hd : m.detach? h = some (u, m'))
    (hv : v.region = u.region) : Sets m (m'.drain v) h (some v) := by
  obtain ⟨hf, rfl⟩ := detach?_eq_some hd
  have hh : v.region.handle = h := hv ▸ (hk.registered h u hf).1
  intro other
  show ((m.table.erase h).find? other).or ((m.draining.insert v.region.handle v).find? other) = _
  rw [Sharded.find?_erase, Table.find?_insert, hh]
  split <;> rfl

theorem sets_forget (hk : m.Keyed) (hf : m.draining.find? h = some u) :
    Sets m (m.forget h) h none := by
  intro other
  show (m.table.find? other).or ((m.draining.erase h).find? other) = _
  rw [Table.find?_erase]
  split
  · next he => rw [he, (hk.draining h u hf).2]; rfl
  · rfl

end Keyed

end Mappings

/-! ## Draining regions -/

/-- The region that a parked call tears down. -/
def Sleeper.torn? (s : Sleeper) : Option Handle := s.rest.region?.map Region.handle

theorem Sleeper.torn?_of_region? {s : Sleeper} {r : Region} (h : s.rest.region? = some r) :
    s.torn? = some r.handle := by
  simp [torn?, h]

/-- Whether two calls do not tear the same region down. -/
def Sleeper.Apart (s s' : Sleeper) : Prop := ∀ h, s.torn? = some h → s'.torn? ≠ some h

theorem Sleeper.Apart.symm {s s' : Sleeper} (h : s.Apart s') : s'.Apart s :=
  fun r hr hr' => h r hr' hr

/-- The teardown of a draining region waits for its last user, and nobody waits in the slot of a
registered region. -/
structure Mappings.Tended (m : Mappings) (awake asleep : List Sleeper) : Prop where
  registered : ∀ h u, m.table.find? h = some u → u.slot.occupant = none
  parked : ∀ s ∈ asleep, ∀ r, s.rest.region? = some r → s.displaced = none ∧
    ∃ u, m.draining.find? r.handle = some u ∧ u.region = r ∧ 0 < u.refs ∧
      u.slot.occupant = some s.waiter
  roused : ∀ s ∈ awake, ∀ r, s.rest.region? = some r →
    ∃ u, m.draining.find? r.handle = some u ∧ u.region = r ∧ u.refs = 0
  torn : ∀ h u, m.draining.find? h = some u →
    ∃ s ∈ awake ++ asleep, s.rest.region? = some u.region
  once : (awake ++ asleep).Pairwise Sleeper.Apart

namespace Mappings.Tended

variable {m m' : Mappings} {h : Handle} {u u' : RegionUse} {awake asleep awake' asleep' : List Sleeper}

theorem once_of_perm (hi : m.Tended awake asleep)
    (hperm : (awake' ++ asleep').Perm (awake ++ asleep)) :
    (awake' ++ asleep').Pairwise Sleeper.Apart :=
  (hperm.pairwise_iff Sleeper.Apart.symm).2 hi.once

/-- A region has one teardown. -/
theorem eq_of_torn? (hi : m.Tended awake asleep) {s s' : Sleeper} (hs : s ∈ awake ++ asleep)
    (hs' : s' ∈ awake ++ asleep) (ht : s.torn? = some h) (ht' : s'.torn? = some h) : s = s' := by
  by_contra hne
  have hperm := List.perm_cons_erase hs
  have honce := (hperm.pairwise_iff Sleeper.Apart.symm).1 hi.once
  have hmem : s' ∈ (awake ++ asleep).erase s :=
    (List.mem_cons.1 (hperm.mem_iff.1 hs')).resolve_left fun he => hne he.symm
  exact (List.pairwise_cons.1 honce).1 s' hmem h ht ht'

/-- The teardown of a draining region that is in use is parked. -/
theorem exists_parked (hi : m.Tended awake asleep) (hk : m.Keyed)
    (hf : m.draining.find? h = some u) (hrefs : u.refs ≠ 0) :
    ∃ s ∈ asleep, s.rest.region? = some u.region ∧ s.displaced = none ∧
      u.slot.occupant = some s.waiter := by
  obtain ⟨s, hs, hregion⟩ := hi.torn h u hf
  have hh := (hk.draining h u hf).1.1
  rcases List.mem_append.1 hs with hs | hs
  · obtain ⟨v, hv, -, hzero⟩ := hi.roused s hs u.region hregion
    rw [hh, hf] at hv
    obtain rfl := Option.some.inj hv
    exact absurd hzero hrefs
  · obtain ⟨hd, v, hv, -, -, hslot⟩ := hi.parked s hs u.region hregion
    rw [hh, hf] at hv
    obtain rfl := Option.some.inj hv
    exact ⟨s, hs, hregion, hd, hslot⟩

/-! ### What operations keep -/

/-- Only registered regions change. -/
theorem table (hi : m.Tended awake asleep)
    (hd : ∀ h, m'.draining.find? h = m.draining.find? h)
    (hslot : ∀ h u, m'.table.find? h = some u → u.slot.occupant = none) :
    m'.Tended awake asleep where
  registered := hslot
  parked := by simpa only [hd] using hi.parked
  roused := by simpa only [hd] using hi.roused
  torn := by simpa only [hd] using hi.torn
  once := hi.once

/-- A reference is given back that is not the last one of a draining region. -/
theorem put (hi : m.Tended awake asleep) (hk : m.Keyed) (hp : m.put? h = some (none, m')) :
    m'.Tended awake asleep := by
  obtain ⟨u, u', hput, hr⟩ := put?_eq_some hp
  obtain ⟨hrefs, hregion, hcases⟩ := RegionUse.put?_eq_some hput
  obtain ⟨hf, rfl⟩ | ⟨hn, hf, rfl⟩ := hr.cases
  · refine hi.table (fun _ => rfl) fun other v hv => ?_
    dsimp only at hv
    rw [Sharded.find?_insert] at hv
    split at hv
    · obtain rfl := Option.some.inj hv
      rcases hcases with ⟨-, -, hslot⟩ | ⟨-, -, hslot⟩
      · rw [hslot]
        exact hi.registered h u hf
      · exact hslot
    · exact hi.registered other v hv
  · -- The last reference would have woken the teardown.
    obtain ⟨hpos, hslot⟩ : 0 < u'.refs ∧ u'.slot = u.slot := by
      rcases hcases with ⟨hpos, -, hslot⟩ | ⟨-, hnobody, -⟩
      · exact ⟨hpos, hslot⟩
      · obtain ⟨s, -, -, -, hs⟩ := hi.exists_parked hk hf (by omega)
        cases hnobody.trans hs
    refine ⟨hi.registered, ?_, ?_, ?_, hi.once⟩ <;> dsimp only
    · intro s hs r hsr
      obtain ⟨hd, v, hv, hvr, hvrefs, hvslot⟩ := hi.parked s hs r hsr
      refine ⟨hd, ?_⟩
      rw [Table.find?_insert]
      split
      · next he =>
        rw [he, hf] at hv
        obtain rfl := Option.some.inj hv
        exact ⟨u', rfl, hregion.trans hvr, hpos, hslot ▸ hvslot⟩
      · exact ⟨v, hv, hvr, hvrefs, hvslot⟩
    · intro s hs r hsr
      obtain ⟨v, hv, hvr, hvrefs⟩ := hi.roused s hs r hsr
      rw [Table.find?_insert, if_neg]
      · exact ⟨v, hv, hvr, hvrefs⟩
      · intro he
        rw [he, hf] at hv
        obtain rfl := Option.some.inj hv
        omega
    · intro other v hv
      rw [Table.find?_insert] at hv
      split at hv
      · obtain rfl := Option.some.inj hv
        rw [hregion]
        exact hi.torn h u hf
      · exact hi.torn other v hv

/-- The last reference to a draining region is given back: its teardown is roused, and nobody
else. -/
theorem putLast (hi : m.Tended awake asleep) (hk : m.Keyed)
    (hn : (asleep.map Sleeper.waiter).Nodup) {w : Waiter} (hp : m.put? h = some (some w, m')) :
    m'.Tended ((rouse w asleep).1 ++ awake) (rouse w asleep).2 := by
  obtain ⟨u, u', hput, hr⟩ := put?_eq_some hp
  obtain ⟨hrefs, hregion, ⟨-, hw, -⟩ | ⟨hzero, hw, -⟩⟩ := RegionUse.put?_eq_some hput
  · cases hw
  obtain ⟨hf, rfl⟩ | ⟨htable, hf, rfl⟩ := hr.cases
  · rw [hi.registered h u hf] at hw
    cases hw
  obtain ⟨s, hs, hsr, hd, hslot⟩ := hi.exists_parked hk hf (by omega)
  have hh : u.region.handle = h := (hk.draining h u hf).1.1
  obtain rfl : w = s.waiter := Option.some.inj (hw.trans hslot)
  have hfind := find?_waiter hn hs
  have hperm : ([s] ++ awake ++ without s.waiter asleep).Perm (awake ++ asleep) := by
    refine (List.perm_append_comm.append_right _).trans ?_
    rw [List.append_assoc]
    exact (without_perm hn hfind).symm.append_left _
  have htorn : s.torn? = some h := hh ▸ Sleeper.torn?_of_region? hsr
  rw [rouse_of_some hfind hd]
  refine ⟨hi.registered, ?_, ?_, ?_, hi.once_of_perm hperm⟩ <;> dsimp only
  · intro s' hs' r hr'
    obtain ⟨hmem, hne⟩ := List.mem_filter.1 hs'
    obtain ⟨hd', v, hv, hrest⟩ := hi.parked s' hmem r hr'
    refine ⟨hd', v, ?_, hrest⟩
    rw [Table.find?_insert, if_neg, hv]
    rintro rfl
    have he := hi.eq_of_torn? (List.mem_append_right _ hmem) (List.mem_append_right _ hs)
      (Sleeper.torn?_of_region? hr') htorn
    simp [he] at hne
  · intro s' hs' r hr'
    rcases List.mem_cons.1 hs' with rfl | hs'
    · obtain rfl := Option.some.inj (hsr.symm.trans hr')
      refine ⟨u', ?_, hregion, hzero⟩
      rw [Table.find?_insert, if_pos hh]
    · obtain ⟨v, hv, hvr, hvzero⟩ := hi.roused s' hs' r hr'
      refine ⟨v, ?_, hvr, hvzero⟩
      rw [Table.find?_insert, if_neg, hv]
      intro he
      rw [he, hf] at hv
      obtain rfl := Option.some.inj hv
      omega
  · intro other v hv
    rw [Table.find?_insert] at hv
    split at hv
    · obtain rfl := Option.some.inj hv
      exact ⟨s, by simp, hregion ▸ hsr⟩
    · obtain ⟨s', hs', hr'⟩ := hi.torn other v hv
      exact ⟨s', hperm.mem_iff.2 hs', hr'⟩

/-- A region in use leaves the table, and its teardown is parked. -/
theorem park (hi : m.Tended awake asleep) (hk : m.Keyed) (hd : m.detach? h = some (u, m'))
    (hrefs : u.refs ≠ 0) {rest : Rest} (ht : rest.region? = some u.region) (w : Waiter) :
    (m'.drain { u with slot := ⟨some w⟩ }).Tended awake
      (asleep ++ [⟨w, u.slot.occupant, rest⟩]) := by
  obtain ⟨hf, rfl⟩ := detach?_eq_some hd
  have hh : u.region.handle = h := (hk.registered h u hf).1
  have hnone := hk.draining_of_registered hf
  have hfind (other : Handle) :
      (m.draining.insert u.region.handle { u with slot := ⟨some w⟩ }).find? other =
        if other = h then some { u with slot := ⟨some w⟩ } else m.draining.find? other := by
    rw [Table.find?_insert, hh]
  have hkeep {r : Region} {v : RegionUse} (hv : m.draining.find? r.handle = some v) :
      (m.draining.insert u.region.handle { u with slot := ⟨some w⟩ }).find? r.handle = some v := by
    rw [hfind, if_neg, hv]
    intro he
    rw [he, hnone] at hv
    cases hv
  have honce : List.Pairwise Sleeper.Apart
      (awake ++ (asleep ++ [⟨w, u.slot.occupant, rest⟩])) := by
    rw [← List.append_assoc]
    refine List.pairwise_append.2 ⟨hi.once, List.pairwise_singleton _ _, ?_⟩
    -- A handle that is torn already is draining already.
    intro s hs s' hs' other hs₁ hs₂
    obtain rfl := List.mem_singleton.1 hs'
    obtain rfl : h = other := by
      rw [Sleeper.torn?_of_region? ht, hh] at hs₂
      exact Option.some.inj hs₂
    obtain ⟨r, hr, rfl⟩ := Option.map_eq_some_iff.1 hs₁
    rcases List.mem_append.1 hs with hs | hs
    · obtain ⟨v, hv, -⟩ := hi.roused s hs r hr
      cases hnone.symm.trans hv
    · obtain ⟨-, v, hv, -⟩ := hi.parked s hs r hr
      cases hnone.symm.trans hv
  refine ⟨?_, ?_, ?_, ?_, honce⟩ <;> dsimp only [drain]
  · intro other v hv
    rw [Sharded.find?_erase] at hv
    split at hv
    · cases hv
    · exact hi.registered other v hv
  · intro s hs r hr
    rcases List.mem_append.1 hs with hs | hs
    · obtain ⟨hd', v, hv, hrest⟩ := hi.parked s hs r hr
      exact ⟨hd', v, hkeep hv, hrest⟩
    · obtain rfl := List.mem_singleton.1 hs
      obtain rfl : u.region = r := Option.some.inj (ht.symm.trans hr)
      refine ⟨hi.registered h u hf, { u with slot := ⟨some w⟩ }, ?_, rfl,
        Nat.pos_of_ne_zero hrefs, rfl⟩
      rw [hfind, if_pos hh]
  · intro s hs r hr
    obtain ⟨v, hv, hrest⟩ := hi.roused s hs r hr
    exact ⟨v, hkeep hv, hrest⟩
  · intro other v hv
    rw [hfind] at hv
    split at hv
    · obtain rfl := Option.some.inj hv
      exact ⟨_, List.mem_append_right _ (List.mem_append_right _ (List.mem_singleton_self _)), ht⟩
    · obtain ⟨s, hs, hr⟩ := hi.torn other v hv
      refine ⟨s, ?_, hr⟩
      rw [← List.append_assoc]
      exact List.mem_append_left _ hs

/-- Calls that tear nothing down are roused. -/
theorem wake (hi : m.Tended awake asleep) (hperm : (awake' ++ asleep').Perm (awake ++ asleep))
    (hasleep : ∀ s ∈ asleep', s ∈ asleep)
    (hawake : ∀ s ∈ awake', s ∈ awake ∨ s.rest.region? = none) : m.Tended awake' asleep' where
  registered := hi.registered
  parked s hs := hi.parked s (hasleep s hs)
  roused s hs r hr := by
    rcases hawake s hs with hs | hnone
    · exact hi.roused s hs r hr
    · cases hnone.symm.trans hr
  torn h u hf := by
    obtain ⟨s, hs, hr⟩ := hi.torn h u hf
    exact ⟨s, hperm.mem_iff.2 hs, hr⟩
  once := hi.once_of_perm hperm

/-- A call that tears nothing down is parked. -/
theorem install (hi : m.Tended awake asleep) {s : Sleeper} (hs : s.rest.region? = none) :
    m.Tended awake (asleep ++ [s]) where
  registered := hi.registered
  parked s' hs' r hr := by
    rcases List.mem_append.1 hs' with hs' | hs'
    · exact hi.parked s' hs' r hr
    · obtain rfl := List.mem_singleton.1 hs'
      cases hs.symm.trans hr
  roused := hi.roused
  torn h u hf := by
    obtain ⟨s', hs', hr⟩ := hi.torn h u hf
    refine ⟨s', ?_, hr⟩
    rw [← List.append_assoc]
    exact List.mem_append_left _ hs'
  once := by
    rw [← List.append_assoc]
    refine List.pairwise_append.2 ⟨hi.once, List.pairwise_singleton _ _, ?_⟩
    intro s₁ _ s₂ hs₂ h _ ht
    obtain rfl := List.mem_singleton.1 hs₂
    simp [Sleeper.torn?, hs] at ht

/-- A roused call comes back. -/
theorem resume {s : Sleeper} (hi : m.Tended (s :: awake) asleep) (hk : m.Keyed) :
    (s.rest.forget m).Tended awake asleep := by
  obtain ⟨hfirst, honce⟩ := List.pairwise_cons.1 hi.once
  cases hr : s.rest.region? with
  | none =>
    rw [Rest.forget_of_none m hr]
    refine ⟨hi.registered, hi.parked, fun s' hs' => hi.roused s' (List.mem_cons_of_mem _ hs'), ?_,
      honce⟩
    intro h u hf
    obtain ⟨s', hs', hregion⟩ := hi.torn h u hf
    refine ⟨s', (List.mem_cons.1 hs').resolve_left ?_, hregion⟩
    rintro rfl
    cases hr.symm.trans hregion
  | some r =>
    have hfind (h : Handle) : (s.rest.forget m).draining.find? h =
        if h = r.handle then none else m.draining.find? h := by
      rw [Rest.draining_forget m hr, Table.find?_erase]
    -- The other calls tear other regions down.
    have hkeep {s' : Sleeper} (hs' : s' ∈ awake ++ asleep) {r' : Region}
        (hr' : s'.rest.region? = some r') :
        (s.rest.forget m).draining.find? r'.handle = m.draining.find? r'.handle := by
      rw [hfind, if_neg]
      intro he
      exact hfirst s' hs' r.handle (Sleeper.torn?_of_region? hr)
        (he ▸ Sleeper.torn?_of_region? hr')
    refine ⟨by rw [Rest.table_forget]; exact hi.registered, ?_, ?_, ?_, honce⟩
    · intro s' hs' r' hr'
      rw [hkeep (List.mem_append_right _ hs') hr']
      exact hi.parked s' hs' r' hr'
    · intro s' hs' r' hr'
      rw [hkeep (List.mem_append_left _ hs') hr']
      exact hi.roused s' (List.mem_cons_of_mem _ hs') r' hr'
    · intro h u hf
      rw [hfind] at hf
      split at hf
      · cases hf
      · next hne =>
        obtain ⟨s', hs', hregion⟩ := hi.torn h u hf
        refine ⟨s', (List.mem_cons.1 hs').resolve_left ?_, hregion⟩
        rintro rfl
        obtain rfl := Option.some.inj (hr.symm.trans hregion)
        exact hne (hk.draining h u hf).1.1.symm

end Mappings.Tended

/-! ## Moves -/

variable {ε : Type} {p : Platform ε} {stray : Prop} {m m' : Moment ε}

/-- The regions of an instance and the map in progress have handles of their own. -/
structure Moment.Keyed (m : Moment ε) : Prop where
  regions : m.world.core.mappings.Keyed
  map : ∀ i, m.hand.map = some i → i.handle.id < m.world.core.mappings.handles.next ∧
    m.world.core.mappings.use? i.handle = none

/-- The draining regions of an instance and their teardowns. -/
def Moment.Tended (m : Moment ε) : Prop :=
  m.world.core.mappings.Tended m.hand.roused m.world.core.parking.sleepers

/-- The region of a roused teardown is draining. -/
theorem Moment.Tended.sets_resume {w : World ε} {k : Hand} {s : Sleeper} {r : Region}
    (hi : Moment.Tended ⟨w, { k with roused := s :: k.roused }⟩) (hk : w.core.mappings.Keyed)
    (hr : s.rest.region? = some r) :
    Mappings.Sets w.core.mappings (s.rest.forget w.core.mappings) r.handle none := by
  obtain ⟨u, hu, -, -⟩ := hi.roused s (List.mem_cons_self ..) r hr
  intro other
  rw [← hk.sets_forget hu other]
  unfold Mappings.use?
  rw [Rest.table_forget, Rest.draining_forget _ hr]
  rfl

theorem Move.keyed (h : Move p stray m m') (ht : m.Tended) (hi : m.Keyed) : m'.Keyed := by
  obtain ⟨hk, hmap⟩ := hi
  -- The map in progress stays out of what happens to regions.
  have hkeep {m₁ m₂ : Mappings} {h : Handle} {u : RegionUse} {o : Option RegionUse}
      {map : Option MapInHand} (hsets : Mappings.Sets m₁ m₂ h o) (hu : m₁.use? h = some u)
      (hnext : m₂.handles.next = m₁.handles.next)
      (hmap : ∀ i, map = some i → i.handle.id < m₁.handles.next ∧ m₁.use? i.handle = none) :
      ∀ i, map = some i → i.handle.id < m₂.handles.next ∧ m₂.use? i.handle = none := by
    intro i hi
    obtain ⟨hlt, hnone⟩ := hmap i hi
    refine ⟨hnext ▸ hlt, ?_⟩
    rw [hsets.of_ne, hnone]
    rintro rfl
    cases hnone.symm.trans hu
  cases h with
  | beginMap w k =>
    refine ⟨hk.begin, fun i hi => ?_⟩
    obtain rfl := Option.some.inj hi
    exact ⟨Nat.lt_succ_self _, hk.use?_eq_none (Nat.le_refl _)⟩
  | pinned w k h base table =>
    refine ⟨hk, fun i hi => ?_⟩
    obtain rfl := Option.some.inj hi
    exact hmap { handle := h } rfl
  | revoke w k h map found =>
    obtain ⟨pending, rfl⟩ := Mappings.revoke?_eq_some found
    exact ⟨{ hk with }, hmap⟩
  | finishMap w k h => exact ⟨{ hk with }, hmap⟩
  | giveUp w k h => exact ⟨hk, nofun⟩
  | rollBack w k h base table cause => exact ⟨hk, nofun⟩
  | register w k r =>
    obtain ⟨hlt, hnone⟩ := hmap _ rfl
    exact ⟨{ hk.register hlt hnone with }, nofun⟩
  | countEvicted w k => exact ⟨{ hk with }, hmap⟩
  | acquire w k h use map found =>
    obtain ⟨u, rfl, hr⟩ := Mappings.acquire?_replaces found
    exact ⟨hk.replaces hr rfl, hkeep hr.sets hr.use? hr.handles hmap⟩
  | put w k h map found =>
    obtain ⟨u, u', hput, hr⟩ := Mappings.put?_eq_some found
    obtain ⟨-, hregion, -⟩ := RegionUse.put?_eq_some hput
    exact ⟨hk.replaces hr hregion, hkeep hr.sets hr.use? hr.handles hmap⟩
  | putLast w k h waiter map found =>
    obtain ⟨u, u', hput, hr⟩ := Mappings.put?_eq_some found
    obtain ⟨-, hregion, -⟩ := RegionUse.put?_eq_some hput
    exact ⟨hk.replaces hr hregion, hkeep hr.sets hr.use? hr.handles hmap⟩
  | detach w k h use map cause found unused =>
    have hf := (Mappings.detach?_eq_some found).1
    have hh := (hk.registered h use hf).1
    have hnext : map.handles = w.core.mappings.handles := by
      rw [(Mappings.detach?_eq_some found).2]
    have hsets := Mappings.sets_detach found
    refine ⟨?_, ?_⟩ <;> dsimp only <;> rw [World.unpinRegion_core, hh]
    · exact (hk.detach found).forget h
    · exact hkeep hsets (Mappings.use?_registered hf) (congrArg Allocator.next hnext) hmap
  | park w k h use map rest found used tears =>
    obtain ⟨hf, hm⟩ := Mappings.detach?_eq_some found
    have hh := hk.registered h use hf
    have hnext : map.handles = w.core.mappings.handles := by rw [hm]
    have hgone : map.table.find? h = none := by rw [hm]; exact Sharded.find?_erase_self _ h
    have hsets := hk.sets_park (v := { use with slot := ⟨some w.core.parking.fresh.1⟩ }) found rfl
    refine ⟨(hk.detach found).drain ?_ ?_, hkeep hsets (Mappings.use?_registered hf)
      (congrArg Allocator.next hnext) hmap⟩
    · rw [hnext]
      exact hh.1.symm ▸ hh.2
    · exact hh.1.symm ▸ hgone
  | resume w k s =>
    have hcore := congrArg Core.mappings (w.resume_core p s)
    cases hr : s.rest.region? with
    | none =>
      rw [Rest.forget_of_none _ hr] at hcore
      exact ⟨hcore ▸ hk, hcore ▸ hmap⟩
    | some r =>
      obtain ⟨u, hu, -, -⟩ := ht.roused s (List.mem_cons_self ..) r hr
      have hforget : (s.rest.forget w.core.mappings).Keyed := by
        have h := hk.forget r.handle
        constructor <;> rw [Rest.handles_forget, Rest.table_forget]
        · exact h.registered
        · rw [Rest.draining_forget _ hr]
          exact h.draining
      refine ⟨hcore ▸ hforget, ?_⟩
      dsimp only
      rw [hcore]
      exact hkeep (ht.sets_resume hk hr) (hk.use?_draining hu) (by rw [Rest.handles_forget]) hmap
  | _ => exact ⟨hk, hmap⟩

theorem Move.tended (h : Move p stray m m') (hk : m.Keyed) (hw : m.Waiting) (hi : m.Tended) :
    m'.Tended := by
  obtain ⟨hk, -⟩ := hk
  cases h with
  | revoke w k h map found =>
    obtain ⟨pending, rfl⟩ := Mappings.revoke?_eq_some found
    exact { hi with }
  | register w k r =>
    refine hi.table (fun _ => rfl) fun h u hf => ?_
    replace hf : (w.core.mappings.table.insert r.handle { region := r }).find? h = some u := hf
    rw [Sharded.find?_insert] at hf
    split at hf
    · obtain rfl := Option.some.inj hf
      rfl
    · exact hi.registered h u hf
  | acquire w k h use map found =>
    obtain ⟨u, rfl, hu, rfl⟩ := Mappings.acquire?_eq_some found
    refine hi.table (fun _ => rfl) fun other v hv => ?_
    replace hv : (w.core.mappings.table.insert h _).find? other = some v := hv
    rw [Sharded.find?_insert] at hv
    split at hv
    · obtain rfl := Option.some.inj hv
      exact hi.registered h u hu
    · exact hi.registered other v hv
  | put w k h map found => exact Mappings.Tended.put hi hk found
  | putLast w k h waiter map found =>
    exact Mappings.Tended.putLast hi hk hw.nodup_sleepers found
  | detach w k h use map cause found unused =>
    obtain ⟨hf, hm⟩ := Mappings.detach?_eq_some found
    unfold Moment.Tended
    dsimp only
    rw [World.unpinRegion_core, (hk.registered h use hf).1, hm]
    refine hi.table (fun other => (Table.find?_erase ..).trans ?_) fun other v hv => ?_
    · split
      · next he => rw [he]; exact (hk.draining_of_registered hf).symm
      · rfl
    · replace hv : (w.core.mappings.table.erase h).find? other = some v := hv
      rw [Sharded.find?_erase] at hv
      split at hv
      · cases hv
      · exact hi.registered other v hv
  | park w k h use map rest found used tears => exact Mappings.Tended.park hi hk found used tears _
  | wake w k waiter =>
    -- A named waiter is not that of a teardown, and so on along the chain.
    have hchain := @rouse_chain waiter w.core.parking.sleepers
      (Named (waiter :: k.wakes) w.core.tasks.table w.core.parking.sleepers)
      (fun s => s.rest.region? = none)
      (fun s hs hc => ⟨(hw.named _ hc).2 s hs rfl, fun _ hd => .displaced hs hd⟩)
      (.wake (List.mem_cons_self ..))
    refine Mappings.Tended.wake hi (hw.unpark_perm waiter) (fun s => hw.mem_unpark) fun s hs => ?_
    exact (List.mem_append.1 hs).elim (fun hs => .inr (hchain s hs)) .inl
  | resume w k s =>
    unfold Moment.Tended
    dsimp only
    rw [World.resume_core]
    exact Mappings.Tended.resume hi hk
  | install w k id rest displaced tasks found waits => exact hi.install waits
  | _ => exact { hi with }

end PeerDma
