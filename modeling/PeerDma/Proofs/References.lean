import PeerDma.Bench.Basic
import PeerDma.Proofs.Calls
import PeerDma.Proofs.Counts

/-!
# References to regions

In every system that a run leads to, the count of a region that is still pinned is the number of
references to it, and a region that has left the table is pinned until the last of them is given
back, which is when its teardown comes back.

* `Moment.Accounted`, `Reach.accounted`: the invariant of all moves and runs.
* `Move.follows`: no parked call is lost.
* `Moment.Retired`: a handle names no region any more, and never will.
* `Moment.Gone`: during a call, a draining region has the one teardown that it had before.
* `Reach.references_exact`: counts are exact.
-/

namespace PeerDma

variable {ε : Type} {p : Platform ε} {stray : Prop} {m m' : Moment ε}

/-! ## The invariant -/

/-- The references that an event says were not there to be given back. -/
def Event.underflows : Event → List Handle
  | logged (.refUnderflow handle) => [handle]
  | _ => []

/-- Regions, references and teardowns are all accounted for. -/
structure Moment.Accounted (m : Moment ε) : Prop where
  keyed : m.Keyed
  waiting : m.Waiting
  tended : m.Tended
  counted : m.Counted
  onRecord : m.OnRecord
  sound : m.world.record Event.underflows = []

theorem Move.sound (h : Move p stray m m') (hc : m.Counted)
    (hi : m.world.record Event.underflows = []) : m'.world.record Event.underflows = [] := by
  cases h with
  | log w k e he => rw [World.record_log _ _ he]; exact hi
  | underflow w k h none => exact absurd none (Mappings.Counted.put?_ne_none hc)
  | detach w k h use map cause found unused => rw [World.unpinRegion_record]; exact hi
  | resume w k s =>
    rw [World.resume_record_eq p s w (fun _ _ => rfl) fun _ _ _ _ => rfl]
    exact hi
  | release w k pins => rw [World.release_record p rfl]; exact hi
  | _ => exact hi

theorem Move.accounted (h : Move p stray m m') (hi : m.Accounted) : m'.Accounted where
  keyed := h.keyed hi.tended hi.keyed
  waiting := h.waiting hi.tended.registered hi.waiting
  tended := h.tended hi.keyed hi.waiting hi.tended
  counted := h.counted hi.keyed hi.tended hi.counted
  onRecord := h.onRecord hi.keyed hi.tended hi.onRecord
  sound := h.sound hi.counted hi.sound

/-- A new instance has nothing to account for. -/
theorem Moment.accounted_fresh (placement : Placement) (config : Config) (x : ε) :
    Moment.Accounted ⟨.fresh placement config x, {}⟩ := by
  have htable (h : Handle) : (World.fresh placement config x).core.mappings.table.find? h = none :=
    Sharded.find?_empty ..
  have htasks (id : TaskId) : (World.fresh placement config x).core.tasks.table.find? id = none :=
    Sharded.find?_empty ..
  have huse (h : Handle) : (World.fresh placement config x).core.mappings.use? h = none := by
    unfold Mappings.use?
    rw [htable]
    rfl
  have hnone {α : Type} {v : α} {P : Prop} (h : none = some v) : P := by cases h
  refine ⟨⟨⟨?_, ?_⟩, nofun⟩, ⟨List.nodup_nil, nofun, ?_, nofun⟩, ⟨?_, nofun, nofun, ?_, .nil⟩,
    ⟨?_, ?_, ?_⟩, ⟨?_, nofun, nofun, nofun⟩, rfl⟩
  · exact fun h u hf => hnone ((htable h).symm.trans hf)
  · exact fun h u hf => hnone hf
  · intro w hw
    cases hw with
    | wake h => cases h
    | slot found h => exact hnone ((htasks _).symm.trans found)
    | displaced parked h => cases parked
  · exact fun h u hf => hnone ((htable h).symm.trans hf)
  · exact fun h u hf => hnone hf
  · exact fun id t hf => hnone ((htasks id).symm.trans hf)
  · exact fun id t hf => hnone ((htasks id).symm.trans hf)
  · intro h
    have honRegion : (World.fresh placement config x).core.tasks.onRegion h = 0 :=
      congrArg (fun l => (l.map fun e : TaskId × Task => e.2.on h).sum) (Sharded.toList_empty ..)
    show ((World.fresh placement config x).core.mappings.use? h).elim 0 RegionUse.refs =
      Multiset.count h 0 + (World.fresh placement config x).core.tasks.onRegion h
    rw [huse, honRegion, Multiset.count_zero]
    rfl
  · intro h base table
    constructor
    · rintro (⟨u, hu, -⟩ | hmap)
      · exact hnone ((huse h).symm.trans hu)
      · cases hmap
    · rintro ⟨hp, -⟩
      cases hp

theorem Reach.accounted {allowed : Call → Prop} {s : System ε} (hs : stray ∨ p.CleansNothing)
    (hc : ∀ c, allowed c → c.isCleanup → stray) (h : Reach p allowed s) : s.moment.Accounted :=
  h.invariant hs hc Moment.accounted_fresh fun _ _ hm hi => hm.accounted hi

theorem Reach.any_accounted {s : System ε} (h : Reach p (fun _ => True) s) : s.moment.Accounted :=
  h.any_invariant Moment.accounted_fresh fun _ _ hm hi => hm.accounted hi

/-! ## Calls that are parked -/

/-- A call that has been parked is parked still, is about to come back, or is on record as having
come back. -/
def Moment.Follows (s : Sleeper) (m : Moment ε) : Prop :=
  s ∈ m.hand.roused ++ m.world.core.parking.sleepers ∨
    (s.waiter, s.rest.reply) ∈ m.world.record Event.back

/-- Another call is parked. -/
theorem Moment.Follows.park {s t : Sleeper} {w w' : World ε} {k : Hand} (hi : Follows s ⟨w, k⟩)
    (hsleepers : w'.core.parking.sleepers = w.core.parking.sleepers ++ [t])
    (hback : w'.record Event.back = w.record Event.back) : Follows s ⟨w', k⟩ := by
  unfold Follows
  dsimp only
  rw [hsleepers, ← List.append_assoc, hback]
  exact hi.imp_left (List.mem_append_left _)

/-- No parked call is lost. -/
theorem Move.follows {s : Sleeper} (h : Move p stray m m') (hw : m.Waiting) (hi : m.Follows s) :
    m'.Follows s := by
  cases h with
  | log w k e he => exact hi.imp_right fun hr => (w.record_log Event.back he).symm ▸ hr
  | putLast w k h waiter map found => exact hi.imp_left (hw.unpark_perm waiter).mem_iff.2
  | detach w k h use map cause found unused =>
    unfold Moment.Follows at hi ⊢
    dsimp only
    rw [World.unpinRegion_core, World.unpinRegion_record]
    exact hi
  | park w k h use map rest found used tears => exact hi.park rfl rfl
  | wake w k waiter => exact hi.imp_left (hw.unpark_perm waiter).mem_iff.2
  | resume w k s' =>
    unfold Moment.Follows at hi ⊢
    dsimp only at hi ⊢
    rw [World.resume_core, World.back_resume]
    rcases hi with hs | hr
    · rcases List.mem_cons.1 hs with rfl | hs
      · exact .inr (List.mem_cons_self ..)
      · exact .inl hs
    · exact .inr (List.mem_cons_of_mem _ hr)
  | install w k id rest displaced tasks found waits => exact hi.park rfl rfl
  | release w k pins =>
    exact hi.imp_right fun hr => (w.release_record p (f := Event.back) rfl pins).symm ▸ hr
  | _ => exact hi

/-! ## Handles that name nothing any more -/

/-- A handle that has been given out names no registered region, and no map is about to register one
under it. -/
structure Moment.Retired (h : Handle) (m : Moment ε) : Prop where
  table : m.world.core.mappings.table.find? h = none
  bound : h.id < m.world.core.mappings.handles.next
  map : ∀ i, m.hand.map = some i → i.handle ≠ h

/-- Handles are given out in order. -/
theorem Move.handles_le (h : Move p stray m m') :
    m.world.core.mappings.handles.next ≤ m'.world.core.mappings.handles.next := by
  cases h with
  | beginMap w k => exact Nat.le_succ _
  | revoke w k h map found =>
    obtain ⟨pending, rfl⟩ := Mappings.revoke?_eq_some found
    exact Nat.le_refl _
  | acquire w k h use map found =>
    obtain ⟨u, -, hr⟩ := Mappings.acquire?_replaces found
    exact hr.handles.ge
  | put w k h map found =>
    obtain ⟨u, u', -, hr⟩ := Mappings.put?_eq_some found
    exact hr.handles.ge
  | putLast w k h waiter map found =>
    obtain ⟨u, u', -, hr⟩ := Mappings.put?_eq_some found
    exact hr.handles.ge
  | detach w k h use map cause found unused =>
    obtain ⟨-, rfl⟩ := Mappings.detach?_eq_some found
    dsimp only
    rw [World.unpinRegion_core]
    exact Nat.le_refl _
  | park w k h use map rest found used tears =>
    obtain ⟨-, rfl⟩ := Mappings.detach?_eq_some found
    exact Nat.le_refl _
  | resume w k s =>
    dsimp only
    rw [World.resume_core, Rest.handles_forget]
  | _ => exact Nat.le_refl _

theorem Moves.handles_le (h : Moves p stray m m') :
    m.world.core.mappings.handles.next ≤ m'.world.core.mappings.handles.next :=
  Moves.keeps (I := fun m' =>
    m.world.core.mappings.handles.next ≤ m'.world.core.mappings.handles.next)
    (fun _ _ hm hle => hle.trans hm.handles_le) h (Nat.le_refl _)

/-- Only a map registers a region, and under a new handle. -/
theorem Move.retired {h : Handle} (hm : Move p stray m m') (hi : m.Retired h) : m'.Retired h := by
  obtain ⟨htable, hbound, hmap⟩ := hi
  have hbound' := Nat.lt_of_lt_of_le hbound hm.handles_le
  cases hm with
  | beginMap w k =>
    refine ⟨htable, hbound', fun i he => ?_⟩
    obtain rfl := Option.some.inj he
    rintro rfl
    exact Nat.lt_irrefl _ hbound
  | pinned w k other base table =>
    refine ⟨htable, hbound', fun i he => ?_⟩
    obtain rfl := Option.some.inj he
    exact hmap { handle := other } rfl
  | revoke w k other map found =>
    obtain ⟨pending, rfl⟩ := Mappings.revoke?_eq_some found
    exact ⟨htable, hbound', hmap⟩
  | giveUp w k other => exact ⟨htable, hbound', nofun⟩
  | rollBack w k other base table cause => exact ⟨htable, hbound', nofun⟩
  | register w k r =>
    have hr : h ≠ r.handle := (hmap _ rfl).symm
    exact ⟨(Sharded.find?_insert ..).trans ((if_neg hr).trans htable), hbound', nofun⟩
  | acquire w k other use map found =>
    obtain ⟨u, rfl, hr⟩ := Mappings.acquire?_replaces found
    exact ⟨hr.table_eq_none htable, hbound', hmap⟩
  | put w k other map found =>
    obtain ⟨u, u', -, hr⟩ := Mappings.put?_eq_some found
    exact ⟨hr.table_eq_none htable, hbound', hmap⟩
  | putLast w k other waiter map found =>
    obtain ⟨u, u', -, hr⟩ := Mappings.put?_eq_some found
    exact ⟨hr.table_eq_none htable, hbound', hmap⟩
  | detach w k other use map cause found unused =>
    obtain ⟨-, rfl⟩ := Mappings.detach?_eq_some found
    refine ⟨?_, hbound', hmap⟩
    dsimp only
    rw [World.unpinRegion_core]
    exact Sharded.find?_erase_eq_none htable
  | park w k other use map rest found used tears =>
    obtain ⟨-, rfl⟩ := Mappings.detach?_eq_some found
    exact ⟨Sharded.find?_erase_eq_none htable, hbound', hmap⟩
  | resume w k s =>
    refine ⟨?_, hbound', hmap⟩
    dsimp only
    rw [World.resume_core, Rest.table_forget]
    exact htable
  | _ => exact ⟨htable, hbound', hmap⟩

/-- A region is out of the table for good and has at most one teardown, which is still to come back
or is on record as having done so. -/
structure Moment.Gone (h : Handle) (s : Sleeper) (m : Moment ε) : Prop where
  table : m.world.core.mappings.table.find? h = none
  bound : h.id < m.world.core.mappings.handles.next
  map : ∀ i, m.hand.map = some i → i.handle ≠ h
  only : ∀ s' ∈ m.hand.roused ++ m.world.core.parking.sleepers, s'.torn? = some h → s' = s
  there : m.Follows s

/-- Nothing that happens to other regions changes what is gone. -/
theorem Move.gone {h : Handle} {s : Sleeper} (hm : Move p stray m m') (hk : m.Keyed)
    (hw : m.Waiting) (hi : m.Gone h s) : m'.Gone h s := by
  obtain ⟨htable, hbound, hmap⟩ := hm.retired ⟨hi.table, hi.bound, hi.map⟩
  refine ⟨htable, hbound, hmap, ?_, hm.follows hw hi.there⟩
  have hpark {k : Hand} {l : List Sleeper} {t : Sleeper}
      (honly : ∀ s' ∈ k.roused ++ l, s'.torn? = some h → s' = s) (ht : t.torn? ≠ some h) :
      ∀ s' ∈ k.roused ++ (l ++ [t]), s'.torn? = some h → s' = s := by
    intro s' hs' htorn
    rw [← List.append_assoc] at hs'
    rcases List.mem_append.1 hs' with hs' | hs'
    · exact honly s' hs' htorn
    · obtain rfl := List.mem_singleton.1 hs'
      exact absurd htorn ht
  cases hm with
  | putLast w k other waiter map found =>
    exact fun s' hs' => hi.only s' ((hw.unpark_perm waiter).mem_iff.1 hs')
  | wake w k waiter => exact fun s' hs' => hi.only s' ((hw.unpark_perm waiter).mem_iff.1 hs')
  | detach w k other use map cause found unused =>
    dsimp only
    rw [World.unpinRegion_core]
    exact hi.only
  | park w k other use map rest found used tears =>
    have hf := (Mappings.detach?_eq_some found).1
    refine hpark (t := ⟨w.core.parking.fresh.1, use.slot.occupant, rest⟩) hi.only ?_
    rw [Sleeper.torn?_of_region? tears, (hk.regions.registered other use hf).1]
    intro he
    obtain rfl := Option.some.inj he
    cases hf.symm.trans hi.table
  | resume w k s' =>
    dsimp only
    rw [World.resume_core]
    exact fun s₁ hs₁ => hi.only s₁ (List.mem_cons_of_mem _ hs₁)
  | install w k id rest displaced tasks found waits =>
    refine hpark (t := ⟨w.core.parking.fresh.1, displaced, rest⟩) hi.only ?_
    simp [Sleeper.torn?, waits]
  | _ => exact hi.only

/-! ## Between calls -/

/-- Whether the pin of a handle has been made and not been handed back. -/
def World.HasPin (w : World ε) (h : Handle) : Prop :=
  (∃ base table, .pinned h base table ∈ w.ambient.history) ∧
    ∀ base table cause, .unpinned h base table cause ∉ w.ambient.history

theorem World.mem_pins {w : World ε} {h : Handle} {base : GpuAddr} {table : PageTable} :
    (h, base, table) ∈ w.record Event.pins ↔ .pinned h base table ∈ w.ambient.history := by
  refine mem_record_iff (c := fun x : Handle × GpuAddr × PageTable => .pinned x.1 x.2.1 x.2.2)
    (fun e x => ?_) rfl
  cases e <;> simp [Event.pins, Prod.ext_iff, eq_comm]

theorem World.mem_unpins {w : World ε} {h : Handle} : h ∈ w.record Event.unpins ↔
    ∃ base table cause, .unpinned h base table cause ∈ w.ambient.history := by
  rw [mem_record fun e he => by cases e <;> first | rfl | cases he]
  constructor
  · rintro ⟨e, he, hp⟩
    cases e with
    | unpinned => cases List.mem_singleton.1 hp; exact ⟨_, _, _, he⟩
    | _ => cases hp
  · exact fun ⟨_, _, _, he⟩ => ⟨_, he, List.mem_singleton_self _⟩

theorem World.mem_back {w : World ε} {waiter : Waiter} {reply : Reply} :
    (waiter, reply) ∈ w.record Event.back ↔ .resumed waiter reply ∈ w.ambient.history := by
  refine mem_record_iff (c := fun x : Waiter × Reply => .resumed x.1 x.2) (fun e x => ?_) rfl
  cases e <;> simp [Event.back, Prod.ext_iff, eq_comm]

namespace System

variable {s : System ε} {h : Handle}

/-- The references to a region that callers hold, and those of tasks that have not given theirs
back. -/
def outstanding (s : System ε) (h : Handle) : Nat := s.held.count h + s.world.core.tasks.onRegion h

/-- The parked teardowns of a region. -/
def teardowns (s : System ε) (h : Handle) : List Sleeper :=
  s.world.core.parking.sleepers.filter (·.torn? = some h)

theorem elim_refs_eq (hi : s.moment.Accounted) :
    (s.world.core.mappings.use? h).elim 0 RegionUse.refs = s.outstanding h :=
  (hi.counted.refs h).trans (congrArg (· + _) (Multiset.coe_count ..))

theorem refs_eq (hi : s.moment.Accounted) {use : RegionUse}
    (hu : s.world.core.mappings.use? h = some use) : use.refs = s.outstanding h := by
  rw [← elim_refs_eq hi, hu]
  rfl

theorem outstanding_eq_zero (hi : s.moment.Accounted)
    (hu : s.world.core.mappings.use? h = none) : s.outstanding h = 0 := by
  rw [← elim_refs_eq hi, hu]
  rfl

theorem hasPin_iff (hi : s.moment.Accounted) :
    s.world.HasPin h ↔ ∃ use, s.world.core.mappings.use? h = some use := by
  constructor
  · rintro ⟨⟨base, table, hp⟩, hn⟩
    have hunpins : h ∉ s.world.record Event.unpins := by
      rw [World.mem_unpins]
      rintro ⟨base, table, cause, he⟩
      exact hn base table cause he
    obtain ⟨u, hu, -⟩ | hmap := (hi.onRecord.owns_iff h base table).2 ⟨World.mem_pins.2 hp, hunpins⟩
    · exact ⟨u, hu⟩
    · cases hmap
  · rintro ⟨use, hu⟩
    obtain ⟨hp, hn⟩ :=
      (hi.onRecord.owns_iff h use.region.base use.region.table).1 (.inl ⟨use, hu, rfl, rfl⟩)
    exact ⟨⟨_, _, World.mem_pins.1 hp⟩, fun base table cause he =>
      hn (World.mem_unpins.2 ⟨base, table, cause, he⟩)⟩

/-- A region that is draining is in use, and has one teardown parked. -/
theorem teardowns_eq (hi : s.moment.Accounted) {use : RegionUse}
    (hf : s.world.core.mappings.draining.find? h = some use) :
    0 < use.refs ∧ ∃ sleeper, s.teardowns h = [sleeper] ∧ sleeper.torn? = some h := by
  have hh := (hi.keyed.regions.draining h use hf).1.1
  obtain ⟨sleeper, hs, hr⟩ := hi.tended.torn h use hf
  have ht : sleeper.torn? = some h := hh ▸ Sleeper.torn?_of_region? hr
  obtain ⟨-, u, hu, -, hpos, -⟩ := hi.tended.parked sleeper hs use.region hr
  obtain rfl : u = use := by
    rw [hh] at hu
    exact Option.some.inj (hu.symm.trans hf)
  refine ⟨hpos, sleeper, ?_, ht⟩
  -- What stands before it and after it tears other regions down.
  obtain ⟨l₁, l₂, hl⟩ := List.append_of_mem (show sleeper ∈ s.world.core.parking.sleepers from hs)
  have honce : (l₁ ++ sleeper :: l₂).Pairwise Sleeper.Apart := hl ▸ hi.tended.once
  obtain ⟨-, hafter, hbefore⟩ := List.pairwise_append.1 honce
  have h₁ : l₁.filter (·.torn? = some h) = [] := List.filter_eq_nil_iff.2 fun x hx hxt =>
    hbefore x hx sleeper (List.mem_cons_self ..) h (by simpa using hxt) ht
  have h₂ : l₂.filter (·.torn? = some h) = [] := List.filter_eq_nil_iff.2 fun x hx hxt =>
    (List.pairwise_cons.1 hafter).1 x hx h ht (by simpa using hxt)
  rw [teardowns, hl, List.filter_append, h₁, List.filter_cons_of_pos (by simpa using ht), h₂]
  rfl

theorem mem_teardowns {sleeper : Sleeper} :
    sleeper ∈ s.teardowns h ↔
      sleeper ∈ s.world.core.parking.sleepers ∧ sleeper.torn? = some h := by
  simp [teardowns]

/-- A parked teardown is that of a draining region in use. -/
theorem draining_of_mem_teardowns (hi : s.moment.Accounted) {sleeper : Sleeper}
    (hs : sleeper ∈ s.teardowns h) :
    ∃ use, s.world.core.mappings.draining.find? h = some use ∧ 0 < use.refs := by
  obtain ⟨hmem, ht⟩ := mem_teardowns.1 hs
  obtain ⟨r, hr, rfl⟩ := Option.map_eq_some_iff.1 ht
  obtain ⟨-, u, hu, -, hpos, -⟩ := hi.tended.parked sleeper hmem r hr
  exact ⟨u, hu, hpos⟩

/-- During a call, a draining region stays out of the table and its teardown in sight. -/
theorem gone_perform {c : Call}
    (hmoves : Moves p stray s.moment (s.perform p c).moment) (hi : s.moment.Accounted)
    {sleeper : Sleeper} (ht : sleeper ∈ s.teardowns h) :
    (s.perform p c).moment.Accounted ∧ (s.perform p c).moment.Gone h sleeper := by
  obtain ⟨use, hf, -⟩ := draining_of_mem_teardowns hi ht
  obtain ⟨⟨-, hlt⟩, htable⟩ := hi.keyed.regions.draining h use hf
  obtain ⟨hmem, htorn⟩ := mem_teardowns.1 ht
  have hgone : s.moment.Gone h sleeper := ⟨htable, hlt, nofun,
    fun s' hs' ht' => hi.tended.eq_of_torn? hs' hmem ht' htorn, .inl hmem⟩
  exact Moves.keeps (I := fun m => m.Accounted ∧ m.Gone h sleeper)
    (fun m m' hm ⟨ha, hg⟩ => ⟨hm.accounted ha, hm.gone ha.keyed ha.waiting hg⟩) hmoves ⟨hi, hgone⟩

/-- After a call, a region that was draining before is listed if it has references, with its
teardown parked, and otherwise its teardown has come back. -/
theorem resumed_iff {c : Call} (hi : (s.perform p c).moment.Accounted) {sleeper : Sleeper}
    (ht : sleeper.torn? = some h) (hg : (s.perform p c).moment.Gone h sleeper) :
    (.resumed sleeper.waiter sleeper.rest.reply ∈ (s.perform p c).world.ambient.history ↔
        (s.perform p c).outstanding h = 0) ∧
      ((s.perform p c).world.HasPin h ↔ (s.perform p c).outstanding h ≠ 0) := by
  generalize s.perform p c = s' at hi hg ⊢
  rw [hasPin_iff hi, ← World.mem_back]
  cases hu : s'.world.core.mappings.use? h with
  | none =>
    have hzero := outstanding_eq_zero hi hu
    refine ⟨iff_of_true ?_ hzero, iff_of_false (by simp) (by simp [hzero])⟩
    refine hg.there.resolve_left fun hmem => ?_
    obtain ⟨u, hd, -⟩ := draining_of_mem_teardowns hi (mem_teardowns.2 ⟨hmem, ht⟩)
    cases hu.symm.trans (hi.keyed.regions.use?_draining hd)
  | some use =>
    have htable : s'.world.core.mappings.table.find? h = none := hg.table
    have hd := ((Mappings.use?_eq_some_iff.1 hu).resolve_left (by rw [htable]; nofun)).2
    obtain ⟨hpos, sleeper', hteardowns, htorn⟩ := teardowns_eq hi hd
    have hne : s'.outstanding h ≠ 0 := by rw [← refs_eq hi hu]; omega
    refine ⟨iff_of_false (fun hr => ?_) hne, iff_of_true ⟨use, rfl⟩ hne⟩
    have hmem : sleeper' ∈ s'.teardowns h := by rw [hteardowns]; exact List.mem_singleton_self _
    obtain rfl := hg.only sleeper' (mem_teardowns.1 hmem).1 htorn
    exact (hi.waiting.back _ hr).2 sleeper' (mem_teardowns.1 hmem).1 rfl

end System

/-- **References are counted exactly.** After any run, with tasks cleaned up by hand at any time:

* A region is listed, with a count, exactly as long as its pin has not been handed back, and the
  count is the number of references that callers and tasks have.
* A registered region has no teardown parked.
* A pinned region that is out of the table is in use and has one teardown parked, which has not come
  back yet. Whatever is called next, the teardown comes back if and only if no reference is left
  after the call, and that is also when the pin is handed back.
* No reference has been given back that was not there.
* Parked teardowns displace nobody, and nobody displaces them.
* In 32 bits the count is the same, as long as fewer than `2 ^ 32` references are held at once. -/
theorem Reach.references_exact {s : System ε} (h : Reach p (fun _ => True) s) :
    (∀ r, s.world.HasPin r ↔
      ∃ use, s.world.core.mappings.use? r = some use ∧ use.refs = s.outstanding r) ∧
    (∀ r use, s.world.core.mappings.table.find? r = some use → s.teardowns r = []) ∧
    (∀ r, s.world.HasPin r → s.world.core.mappings.table.find? r = none →
      0 < s.outstanding r ∧ ∃ sleeper, s.teardowns r = [sleeper] ∧
        (∀ reply, .resumed sleeper.waiter reply ∉ s.world.ambient.history) ∧
        ∀ c, (.resumed sleeper.waiter sleeper.rest.reply ∈ (s.perform p c).world.ambient.history ↔
            (s.perform p c).outstanding r = 0) ∧
          ((s.perform p c).world.HasPin r ↔ (s.perform p c).outstanding r ≠ 0)) ∧
    (∀ r, .logged (.refUnderflow r) ∉ s.world.ambient.history) ∧
    (∀ sleeper ∈ s.world.core.parking.sleepers, sleeper.torn? ≠ none →
      sleeper.displaced = none ∧
        ∀ other ∈ s.world.core.parking.sleepers, other.displaced ≠ some sleeper.waiter) ∧
    ∀ r use, s.world.core.mappings.use? r = some use → s.outstanding r < 2 ^ 32 →
      (UInt32.ofNat use.refs).toNat = s.outstanding r := by
  have hstray : True ∨ p.CleansNothing := .inl trivial
  have hi : s.moment.Accounted := h.accounted hstray fun _ _ _ => trivial
  refine ⟨fun r => ?_, fun r use hf => ?_, fun r hpin hf => ?_, fun r hlog => ?_,
    fun sleeper hs ht => ?_, fun r use hu hfew => ?_⟩
  · rw [System.hasPin_iff hi]
    exact exists_congr fun use => ⟨fun hu => ⟨hu, System.refs_eq hi hu⟩, And.left⟩
  · refine List.eq_nil_iff_forall_not_mem.2 fun sleeper hs => ?_
    obtain ⟨u, hu, -⟩ := System.draining_of_mem_teardowns hi hs
    cases (hi.keyed.regions.draining r u hu).2.symm.trans hf
  · obtain ⟨use, hu⟩ := (System.hasPin_iff hi).1 hpin
    have hd := ((Mappings.use?_eq_some_iff.1 hu).resolve_left (by rw [hf]; nofun)).2
    obtain ⟨hpos, sleeper, hteardowns, htorn⟩ := System.teardowns_eq hi hd
    have hmem : sleeper ∈ s.teardowns r := by rw [hteardowns]; exact List.mem_singleton_self _
    refine ⟨System.refs_eq hi hu ▸ hpos, sleeper, hteardowns, fun reply hr => ?_, fun c => ?_⟩
    · exact (hi.waiting.back _ (World.mem_back.2 hr)).2 sleeper (System.mem_teardowns.1 hmem).1 rfl
    · obtain ⟨hi', hg⟩ := System.gone_perform
        (h.moves hstray (fun _ _ _ => trivial) fun _ => trivial) hi hmem
      exact System.resumed_iff hi' htorn hg
  · have hmem : r ∈ s.world.record Event.underflows :=
      List.mem_flatMap.2 ⟨_, (World.mem_events rfl).2 hlog, List.mem_singleton_self _⟩
    rw [show s.world.record Event.underflows = [] from hi.sound] at hmem
    cases hmem
  · obtain ⟨r, hr⟩ : ∃ r, sleeper.rest.region? = some r := by
      cases hr : sleeper.rest.region? with
      | none => simp [Sleeper.torn?, hr] at ht
      | some r => exact ⟨r, rfl⟩
    refine ⟨(hi.tended.parked sleeper hs r hr).1, fun other ho hd => ?_⟩
    cases ((hi.waiting.named _ (.displaced ho hd)).2 sleeper hs rfl).symm.trans hr
  · rw [System.refs_eq hi hu]
    exact UInt32.toNat_ofNat_of_lt' hfew

/-- A bench with one region, which has been torn down while a caller uses it. -/
def Bench.draining : System Bench :=
  (((System.mk (.fresh {} {} {}) []).perform platform (.map ⟨1⟩ ⟨0x10000⟩ 0x10000)).perform
    platform (.acquire ⟨1⟩)).perform platform (.teardown ⟨1⟩ .unmap)

/-- The teardown of the region comes back when the caller gives its reference back. -/
theorem Reach.references_exact_draining :
    Reach Bench.platform (fun _ => True) Bench.draining ∧ Bench.draining.world.HasPin ⟨1⟩ ∧
      Bench.draining.outstanding ⟨1⟩ = 1 ∧ ∃ sleeper, Bench.draining.teardowns ⟨1⟩ = [sleeper] ∧
        .resumed sleeper.waiter sleeper.rest.reply ∈
          (Bench.draining.perform Bench.platform (.release ⟨1⟩)).world.ambient.history := by
  have hreach : Reach Bench.platform (fun _ => True) Bench.draining :=
    .call (.call (.call (@start _ _ _ {} {} {} _ rfl) _ trivial) _ trivial) _ trivial
  obtain ⟨hpins, -, hdraining, -⟩ := references_exact hreach
  have hused : (Bench.draining.world.core.mappings.use? ⟨1⟩).map RegionUse.refs = some 1 := by
    decide +kernel
  obtain ⟨use, hu, hrefs⟩ := Option.map_eq_some_iff.1 hused
  have hone : Bench.draining.outstanding ⟨1⟩ = 1 := by decide +kernel
  have hpin := (hpins ⟨1⟩).2 ⟨use, hu, hrefs.trans hone.symm⟩
  have htable : (Bench.draining.world.core.mappings.table.find? ⟨1⟩).isNone := by decide +kernel
  obtain ⟨-, sleeper, hs, -, hstep⟩ := hdraining ⟨1⟩ hpin (Option.isNone_iff_eq_none.1 htable)
  exact ⟨hreach, hpin, hone, sleeper, hs, (hstep (.release ⟨1⟩)).1.2 (by decide +kernel)⟩

end PeerDma
