import PeerDma.Proofs.ComingBack

/-!
# Submissions that end in any order

Channels end what is in flight in any order. The end of a submission may end its task, which gives a
reference back, which may let a teardown come back, and it may wake those who wait for the task. In
another order other submissions do this, but the same tasks end and the same calls come back, so that
nothing but the order of the history is different when nothing is in flight any more.

* `World.Settles`, `World.Settling`: what the end of a submission does, up to the order.
* `System.landings`, `Performs.landed`: the ends of all that is in flight.
* `Reach.mem_parked`: who is parked in the end.
* `System.Agrees`, `Reach.any_order`: the order does not matter.
-/

namespace PeerDma

variable {ε : Type} {p : Platform ε} {stray : Prop} {r : Handle} {id : TaskId}

/-! ## What comes to an end -/

/-- The event, if a parked call comes back or a pin is handed back. -/
def Event.endings : Event → List Event
  | e@(unpinned ..) => [e]
  | e@(resumed ..) => [e]
  | _ => []

/-- What a parked call adds to the history when it comes back. -/
def Sleeper.endings (s : Sleeper) : List Event :=
  .resumed s.waiter s.rest.reply :: s.rest.unpinned?.toList

/-- The counts after some parked calls have come back. -/
def MappingStats.after (stats : MappingStats) (back : List Sleeper) : MappingStats :=
  { stats with
    released := stats.released + (back.filterMap Sleeper.torn?).length
    evicted := stats.evicted + (back.filter Sleeper.isNotice).length }

/-- The numbers of the next handle, task, waiter and submission. -/
def Core.numbers (c : Core) : List Nat :=
  [c.mappings.handles.next, c.tasks.ids.next, c.parking.next, c.flights.next]

theorem MappingStats.after_append (stats : MappingStats) (back more : List Sleeper) :
    stats.after (back ++ more) = (stats.after back).after more := by
  simp [after, List.filterMap_append, List.filter_append, Nat.add_assoc]

/-- Parked calls that come back are counted. -/
theorem Mappings.forgetAll_eq (l : List Sleeper) (m : Mappings) :
    (l.foldl (fun m s => s.rest.forget m) m).table = m.table ∧
      (l.foldl (fun m s => s.rest.forget m) m).handles = m.handles ∧
      (l.foldl (fun m s => s.rest.forget m) m).stats = m.stats.after l := by
  induction l generalizing m with
  | nil => exact ⟨rfl, rfl, rfl⟩
  | cons s rest ih =>
    obtain ⟨htable, hhandles, hstats⟩ := ih (s.rest.forget m)
    have hone : (s.rest.forget m).stats = m.stats.after [s] := by
      obtain ⟨waiter, displaced, reason⟩ := s
      cases reason <;> rfl
    refine ⟨htable.trans (Rest.table_forget ..), hhandles.trans (Rest.handles_forget ..), ?_⟩
    rw [List.foldl_cons, hstats, hone, ← MappingStats.after_append]
    rfl

namespace World

theorem record_endings (w : World ε) :
    w.record Event.endings = w.ambient.history.flatMap Event.endings :=
  Event.flatMap_filter (fun e he => by cases e <;> first | rfl | cases he) _

/-- Parked calls that come back add what they are to add. -/
theorem resumeAll_endings (l : List Sleeper) (w : World ε) :
    ((l.foldl (fun w s => w.resume p s) w).record Event.endings).Perm
      (l.flatMap Sleeper.endings ++ w.record Event.endings) := by
  induction l generalizing w with
  | nil => exact .refl _
  | cons s rest ih =>
    have hunpinned : s.rest.unpinned?.toList.flatMap Event.endings = s.rest.unpinned?.toList := by
      cases s.rest <;> rfl
    have hone : (w.resume p s).record Event.endings = s.endings ++ w.record Event.endings := by
      rw [resume_record, hunpinned]
      rfl
    refine (ih (w.resume p s)).trans ?_
    rw [hone, List.flatMap_cons, ← List.append_assoc]
    exact List.perm_append_comm.append_right _

theorem resumeAll_obtains (l : List Sleeper) (w : World ε) :
    (l.foldl (fun w s => w.resume p s) w).record Event.obtains = w.record Event.obtains := by
  induction l generalizing w with
  | nil => rfl
  | cons s rest ih =>
    exact (ih _).trans (resume_record_eq p s w (fun _ _ => rfl) fun _ _ _ _ => rfl)

/-! ## Up to the order -/

/-- What leads from `w` to `w'` lets the calls in `back` come back, which have been parked, and
unpins their regions. It begins nothing. -/
structure Settles (w w' : World ε) (back : List Sleeper) : Prop where
  sleepers : (back ++ w'.core.parking.sleepers).Perm w.core.parking.sleepers
  regions : ∀ r, (w'.core.mappings.table.find? r).map RegionUse.region =
    (w.core.mappings.table.find? r).map RegionUse.region
  stats : w'.core.mappings.stats = w.core.mappings.stats.after back
  taskStats : w'.core.tasks.stats = w.core.tasks.stats
  numbers : w'.core.numbers = w.core.numbers
  endings : (w'.record Event.endings).Perm
    (back.flatMap Sleeper.endings ++ w.record Event.endings)
  obtains : w'.record Event.obtains = w.record Event.obtains

/-- If every waiter stands for one call, what leads from `w` to `w'` does no more than let parked
calls come back. -/
def Settling (w w' : World ε) : Prop :=
  (w.core.parking.sleepers.map Sleeper.waiter).Nodup → ∃ back, w.Settles w' back

namespace Settles

variable {w w' w'' : World ε} {back more : List Sleeper}

theorem trans (h : Settles w w' back) (h' : Settles w' w'' more) :
    Settles w w'' (back ++ more) where
  sleepers := by
    rw [List.append_assoc]
    exact (h'.sleepers.append_left back).trans h.sleepers
  regions r := (h'.regions r).trans (h.regions r)
  stats := by rw [h'.stats, h.stats, MappingStats.after_append]
  taskStats := h'.taskStats.trans h.taskStats
  numbers := h'.numbers.trans h.numbers
  endings := by
    refine (h'.endings.trans (h.endings.append_left _)).trans ?_
    rw [List.flatMap_append, ← List.append_assoc]
    exact List.perm_append_comm.append_right _
  obtains := h'.obtains.trans h.obtains

theorem nodup (h : Settles w w' back) (hn : (w.core.parking.sleepers.map Sleeper.waiter).Nodup) :
    (w'.core.parking.sleepers.map Sleeper.waiter).Nodup := by
  have hall := ((h.sleepers.map Sleeper.waiter).nodup_iff).2 hn
  rw [List.map_append] at hall
  exact hall.of_append_right

/-- The instance stays the same. -/
theorem of_core (hcore : w'.core = w.core)
    (hendings : w'.record Event.endings = w.record Event.endings)
    (hobtains : w'.record Event.obtains = w.record Event.obtains) : Settles w w' [] where
  sleepers := by rw [hcore]; exact .refl _
  regions r := by rw [hcore]
  stats := by rw [hcore]; rfl
  taskStats := by rw [hcore]
  numbers := by rw [hcore]
  endings := by rw [hendings]; exact .refl _
  obtains := hobtains

end Settles

namespace Settling

variable {w w' w'' : World ε}

theorem trans (h : Settling w w') (h' : Settling w' w'') : Settling w w'' := fun hn =>
  have ⟨_, hs⟩ := h hn
  have ⟨_, hs'⟩ := h' (hs.nodup hn)
  ⟨_, hs.trans hs'⟩

theorem of_settles (h : Settles w w' []) : Settling w w' := fun _ => ⟨[], h⟩

theorem refl (w : World ε) : Settling w w := of_settles (.of_core rfl rfl rfl)

theorem log (w : World ε) (e : Log.Entry) : Settling w (w.log e) := by
  refine of_settles (.of_core rfl ?_ ?_)
  · rw [record_endings, record_endings]; rfl
  · rw [record_obtains, record_obtains]; rfl

/-- Only tasks change, and no task is new. -/
theorem setTasks (w : World ε) {t : Tasks} (hstats : t.stats = w.core.tasks.stats)
    (hids : t.ids = w.core.tasks.ids) : Settling w (w.setTasks t) :=
  of_settles ⟨.refl _, fun _ => rfl, rfl, hstats, by simp [Core.numbers, World.setTasks, hids],
    .refl _, rfl⟩

variable (p)

/-- Those whom a waiting call wakes come back. -/
theorem wake (waiter : Waiter) (w : World ε) : Settling w (w.wake p waiter) := by
  intro hn
  have hcore : (w.wake p waiter).core = _ :=
    Continues.resumeAll_core p (rouse waiter w.core.parking.sleepers).1 (w.unpark waiter)
  obtain ⟨htable, hhandles, hstats⟩ :=
    Mappings.forgetAll_eq (rouse waiter w.core.parking.sleepers).1 (w.unpark waiter).core.mappings
  refine ⟨(rouse waiter w.core.parking.sleepers).1, ?_, fun r => ?_, ?_, ?_, ?_,
    resumeAll_endings _ (w.unpark waiter), resumeAll_obtains _ (w.unpark waiter)⟩
  · rw [hcore]
    exact (rouse_perm hn).symm
  · rw [hcore, show _ = _ from htable]
    rfl
  · rw [hcore]
    exact hstats
  · rw [hcore]
    rfl
  · rw [hcore]
    unfold Core.numbers
    dsimp only
    rw [hhandles]
    rfl

theorem wake? (waiter : Option Waiter) (w : World ε) : Settling w (w.wake? p waiter) := by
  cases waiter with
  | none => exact refl w
  | some waiter => exact wake p waiter w

theorem put (h : Handle) (w : World ε) : Settling w (w.put p h) := by
  unfold World.put
  rcases hput : w.core.mappings.put? h with _ | ⟨woken, m⟩
  · exact log w _
  · obtain ⟨u, u', hu, hr⟩ := Mappings.put?_eq_some hput
    have hregion := (RegionUse.put?_eq_some hu).2.1
    refine .trans (of_settles ?_) (wake? p woken (w.setMappings m))
    obtain ⟨hf, rfl⟩ | ⟨-, -, rfl⟩ := hr.cases
    · refine ⟨.refl _, fun r => ?_, rfl, rfl, rfl, .refl _, rfl⟩
      refine (congrArg _ (Sharded.find?_insert ..)).trans ?_
      split
      · next he => rw [he, hf, Option.map_some, Option.map_some, hregion]
      · rfl
    · exact ⟨.refl _, fun r => rfl, rfl, rfl, rfl, .refl _, rfl⟩

theorem releaseAll (pins : List PinSet) (w : World ε) : Settling w (w.releaseAll p pins) := by
  induction pins generalizing w with
  | nil => exact refl w
  | cons pin rest ih =>
    refine .trans (of_settles ?_) (ih (w.releaseAll p [pin]))
    exact .of_core rfl (release_record p rfl pin w) (release_record p rfl pin w)

theorem cleanup (id : TaskId) (w : World ε) : Settling w (w.cleanup p id).2 := by
  unfold World.cleanup
  rcases hr : w.core.tasks.remove? id with _ | ⟨task, tasks⟩
  · exact log w _
  · obtain ⟨-, rfl⟩ := Tasks.remove?_eq_some hr
    have hremove : Settling w (w.setTasks { w.core.tasks with
      table := w.core.tasks.table.erase id }) := setTasks w rfl rfl
    exact (((hremove.trans (put p _ _)).trans (releaseAll p _ _)).trans (wake? p _ _)).trans
      (log _ _)

theorem finish (id : TaskId) (w : World ε) : Settling w (w.finish p id) := by
  have hcount : Settling w (w.setTasks (w.core.tasks.finish id).2) :=
    setTasks w (Tasks.stats_finish ..) (Tasks.ids_finish ..)
  unfold World.finish
  dsimp only
  split
  · exact hcount.trans (cleanup p id _)
  · exact hcount

theorem land (token : Token) (w : World ε) : Settling w (w.land p token) := by
  unfold World.land
  rcases hl : w.core.flights.land? token with _ | ⟨f, flights⟩
  · exact refl w
  · obtain ⟨-, -, rfl⟩ := Flights.land?_eq_some hl
    refine .trans (of_settles ?_) (finish p f.task _)
    exact ⟨.refl _, fun _ => rfl, rfl, rfl, rfl, .refl _, rfl⟩

end Settling

/-- The end of a submission admits no task. -/
theorem admittedIds_land (p : Platform ε) (token : Token) {w : World ε}
    (hn : (w.core.parking.sleepers.map Sleeper.waiter).Nodup) :
    (w.land p token).core.tasks.admittedIds = w.core.tasks.admittedIds := by
  obtain ⟨back, hsettles⟩ := Settling.land p token w hn
  unfold Tasks.admittedIds
  rw [hsettles.taskStats]

end World

/-! ## The ends of all that is in flight -/

/-- The ends of all that is in flight. -/
def System.landings (s : System ε) : List Call :=
  (s.world.core.flights.flights.map Flight.token).map .land

theorem System.mem_landings {s : System ε} {c : Call} :
    c ∈ s.landings ↔ ∃ f ∈ s.world.core.flights.flights, c = .land f.token := by
  simp [landings, eq_comm]

variable {s s' s₁ s₂ : System ε} {calls calls₁ calls₂ : List Call}

/-- What the ends of submissions leave: what is in flight otherwise, and the references of callers. -/
theorem Performs.landed (hperform : Performs p calls s s')
    (hcalls : ∀ c ∈ calls, ∃ token, c = .land token) :
    s'.held = s.held ∧ s.world.Settling s'.world ∧
      ∀ f, f ∈ s'.world.core.flights.flights ↔
        f ∈ s.world.core.flights.flights ∧ .land f.token ∉ calls := by
  induction hperform with
  | done s => exact ⟨rfl, .refl _, fun f => by simp⟩
  | @call c calls s s' after ih =>
    obtain ⟨⟨token, rfl⟩, hrest⟩ := List.forall_mem_cons.1 hcalls
    obtain ⟨hheld, hsettling, hflights⟩ := ih hrest
    refine ⟨hheld, (World.Settling.land p token s.world).trans hsettling, fun f => ?_⟩
    have hland : (s.perform p (.land token)).world.core.flights.flights = _ :=
      congrArg Flights.flights (World.land_flights p token s.world)
    rw [hflights, hland]
    simp [and_assoc]
  | @outside calls s s' x after ih =>
    obtain ⟨hheld, hsettling, hflights⟩ := ih hcalls
    have houtside : s.world.Settling (s.world.setOutside x) := .of_settles (.of_core rfl rfl rfl)
    exact ⟨hheld, houtside.trans hsettling, hflights⟩

/-- All that was in flight in `s` has ended in `s'`, and the calls in `back` have come back. -/
structure System.Ended (p : Platform ε) (s s' : System ε) (back : List Sleeper) : Prop where
  before : Reach p (fun _ => True) s
  reach : Reach p (fun _ => True) s'
  held : s'.held = s.held
  flights : s'.world.core.flights.flights = []
  settles : s.world.Settles s'.world back

theorem Performs.ended (hperform : Performs p calls s s') (h : Reach p (fun _ => True) s)
    (hcalls : calls.Perm s.landings) : ∃ back, s.Ended p s' back := by
  obtain ⟨hheld, hsettling, hflights⟩ := hperform.landed fun c hc => by
    obtain ⟨f, -, rfl⟩ := System.mem_landings.1 (hcalls.subset hc)
    exact ⟨f.token, rfl⟩
  obtain ⟨back, hsettles⟩ := hsettling h.any_accounted.waiting.nodup_sleepers
  refine ⟨back, h, ?_, hheld, List.eq_nil_iff_forall_not_mem.2 fun f hf => ?_, hsettles⟩
  · exact (hperform.moves (.inl trivial) (fun _ _ _ => trivial) (fun _ _ => trivial) h).1
  · obtain ⟨hmem, hnot⟩ := (hflights f).1 hf
    exact hnot (hcalls.symm.subset (System.mem_landings.2 ⟨f, hmem, rfl⟩))

namespace System.Ended

variable {back back₁ back₂ : List Sleeper} {t : Sleeper} {use : RegionUse}

theorem refs (h : s.Ended p s' back) (hu : s'.world.core.mappings.use? r = some use) :
    use.refs = s.held.count r := by
  rw [refs_eq h.reach.any_accounted hu, h.reach.outstanding_held h.flights, h.held]

/-- A region stays registered, and callers have their references still. -/
theorem registered (h : s.Ended p s' back) (r : Handle) :
    s'.world.core.mappings.table.find? r =
      (s.world.core.mappings.table.find? r).map fun use => ⟨use.region, s.held.count r, {}⟩ := by
  have hregion := h.settles.regions r
  cases hf : s'.world.core.mappings.table.find? r with
  | none =>
    rw [hf] at hregion
    rw [Option.map_eq_none_iff.1 hregion.symm]
    rfl
  | some use =>
    have hslot := h.reach.any_accounted.tended.registered r use hf
    rw [hf] at hregion
    obtain ⟨before, hbefore, hsame⟩ := Option.map_eq_some_iff.1 hregion.symm
    rw [hbefore, Option.map_some, hsame, ← h.refs (Mappings.use?_registered hf)]
    obtain ⟨region, refs, ⟨occupant⟩⟩ := use
    obtain rfl : occupant = none := hslot
    rfl

/-- Those who are parked in the end are the teardowns that wait for a caller. -/
theorem mem_parked (h : s.Ended p s' back) : t ∈ s'.world.core.parking.sleepers ↔
    t ∈ s.world.core.parking.sleepers ∧ ∃ r ∈ s.held, t.torn? = some r := by
  have ha := h.reach.any_accounted
  have hsubset : s'.world.core.parking.sleepers ⊆ s.world.core.parking.sleepers :=
    fun _ ht => h.settles.sleepers.subset (List.mem_append_right _ ht)
  constructor
  · intro ht
    have hregion := h.reach.expected.torn ha.waiting ha.tended rfl (h.reach.tasks_over h.flights) t ht
    obtain ⟨region, hregion⟩ := Option.ne_none_iff_exists'.1 hregion
    obtain ⟨-, use, hd, -, hpos, -⟩ := ha.tended.parked t ht region hregion
    rw [h.refs (ha.keyed.regions.use?_draining hd)] at hpos
    exact ⟨hsubset ht, region.handle, List.count_pos_iff.1 hpos, Sleeper.torn?_of_region? hregion⟩
  · rintro ⟨ht, r, hheld, htorn⟩
    have hb := h.before.any_accounted
    -- A region that a caller uses is still there, and so is a teardown of it.
    obtain ⟨before, hd, -⟩ := draining_of_mem_teardowns hb (mem_teardowns.2 ⟨ht, htorn⟩)
    have htable : s'.world.core.mappings.table.find? r = none := by
      have hnone : s.world.core.mappings.table.find? r = none :=
        (hb.keyed.regions.draining r before hd).2
      rw [h.registered, hnone]
      rfl
    have hused : s'.world.core.mappings.use? r ≠ none := by
      intro hnone
      have hzero := outstanding_eq_zero ha hnone
      rw [h.reach.outstanding_held h.flights, h.held] at hzero
      exact List.count_eq_zero.1 hzero hheld
    obtain ⟨use, hu⟩ := Option.ne_none_iff_exists'.1 hused
    have hd' := ((Mappings.use?_eq_some_iff.1 hu).resolve_left (by rw [htable]; nofun)).2
    obtain ⟨-, other, hother, htorn'⟩ := teardowns_eq ha hd'
    have hmem := (mem_teardowns.1 (hother ▸ List.mem_singleton_self other)).1
    rwa [hb.tended.eq_of_torn? (show t ∈ [] ++ _ from ht) (hsubset hmem) htorn htorn']

/-- The regions that drain in the end are those of the teardowns that wait for a caller. -/
theorem draining_iff (h : s.Ended p s' back) :
    s'.world.core.mappings.draining.find? r = some use ↔
      ∃ t ∈ s'.world.core.parking.sleepers, t.rest.region? = some use.region ∧
        use.region.handle = r ∧ use = ⟨use.region, s.held.count r, ⟨some t.waiter⟩⟩ := by
  have ha := h.reach.any_accounted
  have hrefs {use : RegionUse} (hd : s'.world.core.mappings.draining.find? r = some use) :=
    h.refs (ha.keyed.regions.use?_draining hd)
  constructor
  · intro hd
    obtain ⟨t, ht, hregion, -, hslot⟩ := ha.tended.exists_parked ha.keyed.regions hd
      (Nat.ne_of_gt (teardowns_eq ha hd).1)
    refine ⟨t, ht, hregion, (ha.keyed.regions.draining r use hd).1.1, ?_⟩
    rw [← hrefs hd]
    obtain ⟨region, refs, ⟨occupant⟩⟩ := use
    obtain rfl : occupant = some t.waiter := hslot
    rfl
  · rintro ⟨t, ht, hregion, rfl, huse⟩
    obtain ⟨-, other, hd, hsame, -, hslot⟩ := ha.tended.parked t ht use.region hregion
    refine hd.trans (congrArg some ?_)
    rw [huse, ← hrefs hd, ← hsame]
    obtain ⟨region, refs, ⟨occupant⟩⟩ := other
    obtain rfl : occupant = some t.waiter := hslot
    rfl

theorem parked_perm (h₁ : s.Ended p s₁ back₁) (h₂ : s.Ended p s₂ back₂) :
    s₁.world.core.parking.sleepers.Perm s₂.world.core.parking.sleepers :=
  (List.perm_ext_iff_of_nodup h₁.reach.any_accounted.waiting.nodup_sleepers.of_map
    h₂.reach.any_accounted.waiting.nodup_sleepers.of_map).2
    fun _ => h₁.mem_parked.trans h₂.mem_parked.symm

/-- The same calls come back. -/
theorem back_perm (h₁ : s.Ended p s₁ back₁) (h₂ : s.Ended p s₂ back₂) : back₁.Perm back₂ := by
  have hsame := h₁.settles.sleepers.trans h₂.settles.sleepers.symm
  have hparked := (parked_perm h₁ h₂).symm.append_left back₂
  exact (List.perm_append_right_iff _).1 (hsame.trans hparked)

theorem returns_eq (h : s.Ended p s' back) :
    (↑(s'.world.ambient.history.flatMap Event.returns) : Multiset HostPage) =
      ↑(s'.world.ambient.history.flatMap Event.obtains) := by
  have hbalanced := h.reach.conserved.balanced.between
  rw [Tasks.pages_eq_zero (h.reach.tasks_over h.flights), add_zero] at hbalanced
  exact hbalanced.symm

end System.Ended

/-! ## The order does not matter -/

/-- Nothing is in flight in two systems, and nothing tells them apart but the order of their
histories. -/
structure System.Agrees (s₁ s₂ : System ε) : Prop where
  held : s₁.held = s₂.held
  regions : ∀ r, s₁.world.core.mappings.table.find? r = s₂.world.core.mappings.table.find? r
  draining : ∀ r,
    s₁.world.core.mappings.draining.find? r = s₂.world.core.mappings.draining.find? r
  tasks : s₁.world.core.tasks.size = 0 ∧ s₂.world.core.tasks.size = 0
  flights : s₁.world.core.flights.flights = [] ∧ s₂.world.core.flights.flights = []
  parked : s₁.world.core.parking.sleepers.Perm s₂.world.core.parking.sleepers
  numbers : s₁.world.core.numbers = s₂.world.core.numbers
  stats : s₁.world.core.mappings.stats = s₂.world.core.mappings.stats
  taskStats : s₁.world.core.tasks.stats = s₂.world.core.tasks.stats
  /-- The same calls have come back and the same pins have been handed back. -/
  endings : (s₁.world.ambient.history.flatMap Event.endings).Perm
    (s₂.world.ambient.history.flatMap Event.endings)
  obtains : s₁.world.ambient.history.flatMap Event.obtains =
    s₂.world.ambient.history.flatMap Event.obtains
  returns : (s₁.world.ambient.history.flatMap Event.returns).Perm
    (s₂.world.ambient.history.flatMap Event.returns)

theorem MappingStats.after_perm (stats : MappingStats) {back₁ back₂ : List Sleeper}
    (h : back₁.Perm back₂) : stats.after back₁ = stats.after back₂ := by
  unfold after
  rw [(h.filterMap Sleeper.torn?).length_eq, (h.filter Sleeper.isNotice).length_eq]

namespace System.Ended

variable {back₁ back₂ : List Sleeper}

theorem agrees (h₁ : s.Ended p s₁ back₁) (h₂ : s.Ended p s₂ back₂) : s₁.Agrees s₂ := by
  have hback := back_perm h₁ h₂
  have hparked := parked_perm h₁ h₂
  have hobtains : s₁.world.ambient.history.flatMap Event.obtains =
      s₂.world.ambient.history.flatMap Event.obtains := by
    rw [← World.record_obtains, ← World.record_obtains, h₁.settles.obtains, h₂.settles.obtains]
  refine ⟨h₁.held.trans h₂.held.symm, fun r => ?_, fun r => ?_,
    ⟨Sharded.size_eq_zero (h₁.reach.tasks_over h₁.flights),
      Sharded.size_eq_zero (h₂.reach.tasks_over h₂.flights)⟩,
    ⟨h₁.flights, h₂.flights⟩, hparked, h₁.settles.numbers.trans h₂.settles.numbers.symm, ?_,
    h₁.settles.taskStats.trans h₂.settles.taskStats.symm, ?_, hobtains, ?_⟩
  · rw [h₁.registered, h₂.registered]
  · refine Option.ext fun use => ?_
    rw [h₁.draining_iff, h₂.draining_iff]
    exact exists_congr fun t => and_congr_left fun _ => hparked.mem_iff
  · rw [h₁.settles.stats, h₂.settles.stats, MappingStats.after_perm _ hback]
  · rw [← World.record_endings, ← World.record_endings]
    exact (h₁.settles.endings.trans ((hback.flatMap_right _).append_right _)).trans
      h₂.settles.endings.symm
  · refine Multiset.coe_eq_coe.1 ?_
    rw [h₁.returns_eq, h₂.returns_eq, hobtains]

end System.Ended

/-- If only the library itself cleans tasks up, a task is over when it has been admitted and nothing
of it is in flight. -/
theorem Reach.completed_iff (hs : stray ∨ p.CleansNothing)
    (h : Reach p (fun c => c.isCleanup → stray) s) (hn : ¬stray) :
    .logged (.completed id) ∈ s.world.ambient.history ↔
      id ∈ s.world.core.tasks.admittedIds ∧ s.world.core.flights.ofTask id = [] := by
  have hany : Reach p (fun _ => True) s := h.mono fun _ _ => trivial
  have hi := hany.tallied
  constructor
  · intro hid
    have hended : id ∈ s.moment.ended := List.mem_append_right _ (World.mem_completes.2 hid)
    have hcontains : (s.world.core.tasks.table.find? id).isSome = false :=
      (hany.finished hid [] s (.done s) s.moment .refl).contains
    have hnone : s.world.core.tasks.table.find? id = none := by simpa using hcontains
    have hgone : ¬s.moment.Registered id := not_not.2 hnone
    exact ⟨hi.numbered.once.mem_iff.1 (List.mem_append_right _ hended), h.landed hs .refl hgone hn⟩
  · rintro ⟨hid, hnone⟩
    have hgone : ¬s.moment.Registered id := by
      intro hr
      obtain ⟨hexact, hpos⟩ := hi.exact hr List.not_mem_nil
      replace hexact : s.world.core.tasks.outstandingOf id =
        (s.world.core.flights.ofTask id).length + 0 := hexact
      rw [hnone] at hexact
      exact Nat.ne_of_gt hpos hexact
    exact World.mem_completes.1 (hi.ended_of_admitted hid hgone)

/-! ## The last submission of a task -/

namespace Flights

variable {fs : Flights} {f : Flight}

/-- What is in flight of a task, once one submission has ended. -/
theorem ofTask_land_eq (p : Platform ε) (token : Token) (w : World ε) (id : TaskId) :
    (w.land p token).core.flights.ofTask id =
      (w.core.flights.ofTask id).filter (·.token ≠ token) := by
  rw [World.land_flights]
  unfold ofTask
  rw [List.filter_filter, List.filter_filter]
  exact List.filter_congr fun _ _ => Bool.and_comm ..

/-- A submission is the last one of its task if there is no other. -/
theorem filter_eq_nil_iff (hn : (fs.flights.map Flight.token).Nodup) (hf : f ∈ fs.flights) :
    (fs.ofTask f.task).filter (·.token ≠ f.token) = [] ↔ fs.ofTask f.task = [f] := by
  have hperm : (fs.ofTask f.task).Perm (f :: (fs.ofTask f.task).filter (·.token ≠ f.token)) :=
    perm_cons_filter_ne (hn.sublist (List.filter_sublist.map _)) (mem_ofTask.2 ⟨hf, rfl⟩)
  constructor <;> intro heq
  · rw [heq] at hperm
    exact List.perm_singleton.1 hperm
  · rw [heq]
    simp

/-- The end of a submission leaves those of other tasks in flight. -/
theorem filter_of_ne (hn : (fs.flights.map Flight.token).Nodup) (hf : f ∈ fs.flights)
    (hne : id ≠ f.task) : (fs.ofTask id).filter (·.token ≠ f.token) = fs.ofTask id := by
  refine List.filter_eq_self.2 fun g hg => decide_eq_true fun htoken => hne ?_
  obtain ⟨hgf, rfl⟩ := mem_ofTask.1 hg
  rw [List.inj_on_of_nodup_map hn hgf hf htoken]

end Flights

/-- If only the library itself cleans tasks up, what is in flight is in flight for an admitted
task. -/
theorem Reach.admitted_of_flight (hs : stray ∨ p.CleansNothing)
    (h : Reach p (fun c => c.isCleanup → stray) s) (hn : ¬stray) {f : Flight}
    (hf : f ∈ s.world.core.flights.flights) : f.task ∈ s.world.core.tasks.admittedIds := by
  have hany : Reach p (fun _ => True) s := h.mono fun _ _ => trivial
  have hr : s.moment.Registered f.task := by
    by_contra hgone
    exact List.ne_nil_of_mem (Flights.mem_ofTask.2 ⟨hf, rfl⟩) (h.landed hs .refl hgone hn)
  obtain ⟨task, ht⟩ := Option.ne_none_iff_exists'.1 hr
  exact hany.tallied.numbered.once.mem_iff.1
    (List.mem_append_left _ (Sharded.mem_keys.2 ⟨task, ht⟩))

/-- If only the library itself cleans tasks up, the end of a submission ends its task if it is the
last one, and no other task. -/
theorem Reach.completed_land (hs : stray ∨ p.CleansNothing)
    (h : Reach p (fun c => c.isCleanup → stray) s) (hn : ¬stray) {f : Flight}
    (hf : f ∈ s.world.core.flights.flights) :
    .logged (.completed f.task) ∉ s.world.ambient.history ∧
      ∀ id, .logged (.completed id) ∈ (s.perform p (.land f.token)).world.ambient.history ↔
        .logged (.completed id) ∈ s.world.ambient.history ∨
          id = f.task ∧ s.world.core.flights.ofTask id = [f] := by
  have hany : Reach p (fun _ => True) s := h.mono fun _ _ => trivial
  have hi := hany.tallied
  have hnodup : (s.world.core.flights.flights.map Flight.token).Nodup := hi.tracked.nodup
  have hnonempty : s.world.core.flights.ofTask f.task ≠ [] :=
    List.ne_nil_of_mem (Flights.mem_ofTask.2 ⟨hf, rfl⟩)
  have hadmitted := h.admitted_of_flight hs hn hf
  have hsame : (s.perform p (.land f.token)).world.core.tasks.admittedIds = _ :=
    World.admittedIds_land p f.token hi.accounted.waiting.nodup_sleepers
  have hland := Flights.ofTask_land_eq p f.token s.world
  have h' : Reach p (fun c => c.isCleanup → stray) (s.perform p (.land f.token)) := h.call _ nofun
  refine ⟨fun hid => hnonempty ((h.completed_iff hs hn).1 hid).2, fun id => ?_⟩
  rw [h'.completed_iff hs hn, h.completed_iff hs hn, hsame]
  show _ ∧ (s.world.land p f.token).core.flights.ofTask id = [] ↔ _
  rw [hland]
  by_cases he : id = f.task
  · subst he
    rw [Flights.filter_eq_nil_iff hnodup hf]
    refine ⟨fun h => .inr ⟨rfl, h.2⟩, fun h => ⟨hadmitted, ?_⟩⟩
    exact (h.resolve_left fun hnone => hnonempty hnone.2).2
  · rw [Flights.filter_of_ne hnodup hf he]
    exact ⟨.inl, fun h => h.resolve_right fun h => he h.1⟩

/-- **The order in which submissions end does not matter.** After any run, with any number of tasks
in flight and any calls parked, let all that is in flight end, each once, in one order and in
another.

* Both lead to the same: the same regions are registered, with the same counts, and drain; no task is
  registered; the same calls are parked; all counts are the same; the same calls have come back with
  the same reports, the same pins have been handed back for the same causes, and the same page
  references have been obtained and given back.
* If only the library itself cleans tasks up, then in any order each task is cleaned up when its own
  last submission ends, and not before. -/
theorem Reach.any_order (hs : stray ∨ p.CleansNothing)
    (h : Reach p (fun c => c.isCleanup → stray) s) (h₁ : calls₁.Perm s.landings)
    (h₂ : calls₂.Perm s.landings) (hperform₁ : Performs p calls₁ s s₁)
    (hperform₂ : Performs p calls₂ s s₂) :
    s₁.Agrees s₂ ∧
      (¬stray → ∀ before token after s', (before ++ .land token :: after).Perm s.landings →
        Performs p before s s' → ∃ f ∈ s'.world.core.flights.flights, f.token = token ∧
          .logged (.completed f.task) ∉ s'.world.ambient.history ∧
          ∀ id, .logged (.completed id) ∈ (s'.perform p (.land token)).world.ambient.history ↔
            .logged (.completed id) ∈ s'.world.ambient.history ∨
              id = f.task ∧ s'.world.core.flights.ofTask id = [f]) := by
  have hany : Reach p (fun _ => True) s := h.mono fun _ _ => trivial
  refine ⟨?_, fun hn before token after s' hperm hperform => ?_⟩
  · obtain ⟨back₁, hended₁⟩ := hperform₁.ended hany h₁
    obtain ⟨back₂, hended₂⟩ := hperform₂.ended hany h₂
    exact hended₁.agrees hended₂
  · have hlandings : s.landings.Nodup := by
      have htokens : (s.world.core.flights.flights.map Flight.token).Nodup :=
        hany.tallied.tracked.nodup
      exact htokens.map fun _ _ => Call.land.inj
    have hbefore (c : Call) (hc : c ∈ before) : ∃ token, c = .land token := by
      obtain ⟨f, -, rfl⟩ := System.mem_landings.1 (hperm.subset (List.mem_append_left _ hc))
      exact ⟨f.token, rfl⟩
    obtain ⟨f, hf, htoken⟩ := System.mem_landings.1
      (hperm.subset (List.mem_append_right _ (List.mem_cons_self ..)))
    obtain rfl := Call.land.inj htoken
    have hleft : .land f.token ∉ before := by
      have hapart := List.nodup_append'.1 (hperm.nodup_iff.2 hlandings)
      exact fun hmem => hapart.2.2 hmem (List.mem_cons_self ..)
    have hf' := ((hperform.landed hbefore).2.2 f).2 ⟨hf, hleft⟩
    have h' : Reach p (fun c => c.isCleanup → stray) s' := by
      refine (hperform.moves hs (fun _ hc => hc) (fun c hc hclean => ?_) h).1
      obtain ⟨token, rfl⟩ := hbefore c hc
      cases hclean
    exact ⟨f, hf', rfl, h'.completed_land hs hn hf'⟩

/-- A bench with a copy in flight, a second copy whose call waits, and a teardown that waits for
both. -/
def Bench.shared : System Bench :=
  System.mk (.fresh {} {} { memory := { ending := .manual } }) []
    |>.perform hookless (.map ⟨1⟩ ⟨0x10000⟩ 0x10000)
    |>.perform hookless (.copyAsync ⟨⟨1⟩, none, 0, [.host 0x5000 0x1000]⟩)
    |>.perform hookless (.copy ⟨⟨1⟩, none, 0x1000, [.host 0x9000 0x1000]⟩)
    |>.perform hookless (.teardown ⟨1⟩ .unmap)

/-- The teardown comes back with the copy that ends last, in either order. The two calls that come
back do so in another order. -/
theorem Reach.any_order_shared :
    let first := Bench.shared
      |>.perform Bench.hookless (.land ⟨0⟩)
      |>.perform Bench.hookless (.land ⟨1⟩)
    let half := Bench.shared.perform Bench.hookless (.land ⟨1⟩)
    let second := half.perform Bench.hookless (.land ⟨0⟩)
    Bench.hookless.CleansNothing ∧
      Reach Bench.hookless (fun c => c.isCleanup → False) Bench.shared ∧
      Bench.shared.landings = [.land ⟨1⟩, .land ⟨0⟩] ∧ first.Agrees second ∧
      first.world.ambient.history.flatMap Event.back = [(⟨0⟩, .copied ⟨2⟩), (⟨1⟩, .done)] ∧
      second.world.ambient.history.flatMap Event.back = [(⟨1⟩, .done), (⟨0⟩, .copied ⟨2⟩)] ∧
      .logged (.completed ⟨1⟩) ∉ half.world.ambient.history ∧
      .logged (.completed ⟨1⟩) ∈ second.world.ambient.history := by
  intro first half second
  have hp := Bench.cleansNothing_hookless
  have h : Reach Bench.hookless (fun c => c.isCleanup → False) Bench.shared :=
    .call (.call (.call (.call
      (@start _ _ _ {} {} { memory := { ending := .manual } } _ rfl) _ nofun) _ nofun) _ nofun) _
        nofun
  have hlandings : Bench.shared.landings = [.land ⟨1⟩, .land ⟨0⟩] := by
    have htokens : Bench.shared.world.core.flights.flights.map Flight.token = [⟨1⟩, ⟨0⟩] := by
      decide +kernel
    rw [System.landings, htokens]
    rfl
  have hswap : [.land ⟨0⟩, .land ⟨1⟩].Perm Bench.shared.landings := hlandings ▸ .swap ..
  obtain ⟨hagrees, hlast⟩ := any_order (.inr hp) h hswap (.of_eq hlandings.symm)
    (.call (.call (.done first))) (.call (.call (.done second)))
  let f : Flight := ⟨⟨0⟩, ⟨1⟩, .memory, ⟨0x800000005000, ⟨0x4000000000⟩, 0x1000⟩⟩
  have hleft : half.world.core.flights.flights = [f] := by decide +kernel
  obtain ⟨f', hf', -, hrunning, hcompleted⟩ := hlast not_false [.land ⟨1⟩] ⟨0⟩ [] half
    (.of_eq hlandings.symm) (.call (.done half))
  obtain rfl : f' = f := List.mem_singleton.1 (hleft ▸ hf')
  have hone : half.world.core.flights.ofTask ⟨1⟩ = [f] := by
    rw [Flights.ofTask, hleft]
    rfl
  have hsecond : second = half.perform Bench.hookless (.land ⟨0⟩) := rfl
  refine ⟨hp, h, hlandings, hagrees, by decide +kernel, by decide +kernel, hrunning, ?_⟩
  rw [hsecond]
  exact (hcompleted ⟨1⟩).2 (.inr ⟨rfl, hone⟩)

end PeerDma
