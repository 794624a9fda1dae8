import PeerDma.Proofs.Draining

/-!
# Handles and task ids that are used up

A map takes a new handle, whatever becomes of it. Once the region of a handle has left the table, or
the map has failed, the handle names nothing for good: look-ups do not find it, and a notice that
fires late only writes a line to the log. It is the same with the id of a task that has been cleaned
up.

* `System.takes?`, `System.removes`: the handle that a call takes, and the one that it removes.
* `World.Unknown`, `World.Finished`: what is answered about a handle or a task that is gone.
* `System.Always`: what holds from now on, at every moment of every call.
* `Steps.handles_once`: handles and task ids are used once.
-/

namespace PeerDma

variable {ε : Type} {p : Platform ε} {stray : Prop} {m m' : Moment ε} {r : Handle} {id : TaskId}

/-! ## What is gone -/

/-- A handle names no region: it is not found, and no call waits for it. -/
structure World.Unknown (p : Platform ε) (r : Handle) (w : World ε) : Prop where
  acquire : w.acquire r = (.error .notFound, w.log (.regionNotFound r))
  info : ∀ capacity, w.info p r capacity = (.error .notFound, w.log (.regionNotFound r))
  teardown : ∀ cause, w.teardown p r cause =
    (.returned (.error .notFound), w.log (.regionNotFound r))
  evict : w.evict p r = (.returned (), w.log (.evictionAfterRelease r))

/-- A task is over: it is not found, and no call waits for it. -/
structure World.Finished (p : Platform ε) (id : TaskId) (w : World ε) : Prop where
  contains : w.core.tasks.contains id = false
  wait : w.wait id = (.returned (.error .notFound), w)
  cleanup : w.cleanup p id = (.error .notFound, w.log (.unknownTask id))

namespace World

variable {w : World ε} {use : RegionUse} {cause : Cause}

theorem teardown_unlisted (hf : w.core.mappings.table.find? r = none) :
    w.teardown p r cause = (.returned (.error .notFound), w.log (.regionNotFound r)) := by
  have hd : w.core.mappings.detach? r = none := Option.map_eq_none_iff.2 hf
  unfold teardown detach
  rw [hd]

/-- A teardown that finds its region takes it out of the table. -/
theorem teardown_listed (hf : w.core.mappings.table.find? r = some use) :
    (∀ e, (w.teardown p r cause).1 ≠ .returned (.error e)) ∧
      (w.teardown p r cause).2.core.mappings.table = w.core.mappings.table.erase r := by
  have hd : w.core.mappings.detach? r =
      some (use, { w.core.mappings with table := w.core.mappings.table.erase r }) := by
    rw [Mappings.detach?, hf]
    rfl
  unfold teardown detach
  rw [hd]
  by_cases hu : use.refs = 0
  · simp only [hu, if_true]
    rw [unpinRegion_core]
    exact ⟨fun e he => (by cases he), rfl⟩
  · simp only [hu, if_false]
    exact ⟨fun e he => (by cases he), rfl⟩

/-- A notice that finds its region takes it out of the table. -/
theorem evict_listed (hn : w.core.mappings.pendingHandles = [])
    (hf : w.core.mappings.table.find? r = some use) :
    (w.evict p r).2.core.mappings.table = w.core.mappings.table.erase r := by
  rw [evict_core p hn hf]
  split <;> rfl

theorem Unknown.of_table (hf : w.core.mappings.table.find? r = none)
    (hn : r ∉ w.core.mappings.pendingHandles) : w.Unknown p r := by
  have hacquire : w.acquire r = (.error .notFound, w.log (.regionNotFound r)) := by
    have ha : w.core.mappings.acquire? r = none := Option.map_eq_none_iff.2 hf
    unfold World.acquire
    rw [ha]
  refine ⟨hacquire, fun capacity => ?_, fun cause => teardown_unlisted hf,
    evict_unlisted p hn (Option.map_eq_none_iff.2 hf)⟩
  unfold World.info
  rw [hacquire]

/-- A call does not wait for a task that is not registered. -/
theorem await_unlisted (hf : w.core.tasks.table.find? id = none) (rest : Rest) :
    w.await id rest = (.returned (.error .notFound), w) := by
  have hi : w.core.tasks.install? id w.core.parking.fresh.1 = none := Option.map_eq_none_iff.2 hf
  unfold await
  dsimp only
  rw [hi]

theorem Finished.of_table (hf : w.core.tasks.table.find? id = none) : w.Finished p id where
  contains := by
    unfold Tasks.contains Sharded.contains
    rw [hf]
    rfl
  wait := await_unlisted hf .wait
  cleanup := by
    have hr : w.core.tasks.remove? id = none := Option.map_eq_none_iff.2 hf
    unfold World.cleanup
    rw [hr]

end World

/-- The maps in progress have new handles. -/
theorem Move.not_pending (h : Move p stray m m')
    (hlt : r.id < m.world.core.mappings.handles.next)
    (hn : r ∉ m.world.core.mappings.pendingHandles) :
    r ∉ m'.world.core.mappings.pendingHandles := by
  cases h with
  | beginMap w k =>
    have hbegin : w.core.mappings.begin.2.pendingHandles =
        w.core.mappings.pendingHandles ++ [w.core.mappings.begin.1] := List.map_append ..
    intro hmem
    rcases List.mem_append.1 (hbegin ▸ hmem) with hmem | hmem
    · exact hn hmem
    · obtain rfl := List.mem_singleton.1 hmem
      exact Nat.lt_irrefl _ hlt
  | revoke w k h map found =>
    have hhandles : map.pendingHandles = w.core.mappings.pendingHandles := by
      unfold Mappings.revoke? at found
      split at found
      · obtain rfl := Option.some.inj found
        unfold Mappings.pendingHandles
        rw [List.map_map]
        refine List.map_congr_left fun i _ => ?_
        dsimp only [Function.comp]
        split <;> rfl
      · cases found
    exact hhandles ▸ hn
  | finishMap w k h => exact fun hmem => hn ((List.filter_sublist.map _).subset hmem)
  | acquire w k h use map found =>
    obtain ⟨u, rfl, hr⟩ := Mappings.acquire?_replaces found
    exact (Mappings.Keeps.replaces hr rfl).pending.symm ▸ hn
  | put w k h map found =>
    obtain ⟨u, u', hput, hr⟩ := Mappings.put?_eq_some found
    exact (Mappings.Keeps.replaces hr (RegionUse.put?_eq_some hput).2.1).pending.symm ▸ hn
  | putLast w k h waiter map found =>
    obtain ⟨u, u', hput, hr⟩ := Mappings.put?_eq_some found
    exact (Mappings.Keeps.replaces hr (RegionUse.put?_eq_some hput).2.1).pending.symm ▸ hn
  | detach w k h use map cause found unused =>
    dsimp only
    rw [World.unpinRegion_core]
    exact (Mappings.Keeps.detach found).pending.symm ▸ hn
  | park w k h use map rest found used tears =>
    exact (Mappings.Keeps.detach found).pending.symm ▸ hn
  | resume w k s =>
    dsimp only
    rw [World.resume_core]
    cases s.rest <;> exact hn
  | _ => exact hn

/-! ## Calls -/

/-- The teardown that the call makes. -/
def Call.teardown? : Call → Option (Handle × Cause)
  | .teardown handle cause => some (handle, cause)
  | .dispatch _ number (.unmap handle) =>
    if CommandCode.ofNumber? number = some (Block.unmap handle).code then some (⟨handle⟩, .unmap)
    else none
  | _ => none

namespace System

/-- The handle that the call takes: a map takes one if its range is one. -/
def takes? (c : Call) (s : System ε) : Option Handle :=
  c.map?.bind fun (_, address, length) =>
    if length = 0 ∨ Word.bound ≤ address.raw + length then none
    else some s.world.core.mappings.begin.1

/-- The handle that the call takes in vain, because its map fails. -/
def wastes? (p : Platform ε) (c : Call) (s : System ε) : Option Handle :=
  c.map?.bind fun (owner, address, length) =>
    match (s.world.map p owner address length).1 with
    | .error _ => s.takes? c
    | .ok _ => none

/-- Whether the call takes a region out of the table. -/
def removes (p : Platform ε) (c : Call) (r : Handle) (s : System ε) : Bool :=
  s.world.core.mappings.table.contains r &&
    !(s.perform p c).world.core.mappings.table.contains r

/-- What holds from now on, whatever is called: after any calls, and at every moment of the next
one. -/
def Always (p : Platform ε) (P : World ε → Prop) (s : System ε) : Prop :=
  ∀ calls s', Performs p calls s s' → ∀ m, Moves p True s'.moment m → P m.world

variable {s : System ε} {c : Call} {owner : Pid} {address : GpuAddr} {length : Nat} {cause : Cause}

theorem takes?_eq_some_iff (hmap : c.map? = some (owner, address, length)) :
    s.takes? c = some r ↔ ¬(length = 0 ∨ Word.bound ≤ address.raw + length) ∧
      r = s.world.core.mappings.begin.1 := by
  unfold takes?
  rw [hmap]
  dsimp only [Option.bind_some]
  split
  · next hinvalid => exact iff_of_false nofun fun h => h.1 hinvalid
  · next hvalid =>
    rw [Option.some.injEq]
    exact ⟨fun h => ⟨hvalid, h.symm⟩, fun h => h.2.symm⟩

/-- A call that makes a teardown does nothing else to the instance. -/
theorem perform_core_of_teardown? (h : c.teardown? = some (r, cause)) (s : System ε) :
    (s.perform p c).world.core = (s.world.teardown p r cause).2.core := by
  cases c with
  | teardown handle cause =>
    obtain ⟨rfl, rfl⟩ : _ ∧ _ := by simpa [Call.teardown?] using h
    rfl
  | dispatch caller number block =>
    cases block with
    | unmap handle =>
      obtain ⟨hcode, rfl, rfl⟩ : _ ∧ _ ∧ _ := by simpa [Call.teardown?] using h
      exact World.dispatch_core p hcode s.world
    | _ => simp [Call.teardown?] at h
  | _ => simp [Call.teardown?] at h

theorem removes_iff : s.removes p c r ↔ s.world.core.mappings.table.find? r ≠ none ∧
    (s.perform p c).world.core.mappings.table.find? r = none := by
  simp [removes, Sharded.contains, Option.isSome_iff_ne_none]

/-- A teardown succeeds if and only if it takes its region out of the table. -/
theorem removes_teardown (hc : c.teardown? = some (r, cause)) :
    s.removes p c r ↔ ∀ e, (s.world.teardown p r cause).1 ≠ .returned (.error e) := by
  rw [removes_iff, perform_core_of_teardown? hc]
  cases hf : s.world.core.mappings.table.find? r with
  | none =>
    rw [World.teardown_unlisted hf]
    exact iff_of_false (fun h => h.1 rfl) fun h => h .notFound rfl
  | some use =>
    obtain ⟨hanswer, htable⟩ := @World.teardown_listed _ p r _ use cause hf
    rw [htable]
    exact iff_of_true ⟨nofun, Sharded.find?_erase_self ..⟩ hanswer

/-- A notice that takes a region back takes it out of the table. -/
theorem removes_evict (h : Reach p (fun _ => True) s) (hc : s.takesBack? c = some r) :
    s.removes p c r := by
  obtain ⟨rfl, use, hf⟩ := takesBack?_eq_some_iff.1 hc
  refine removes_iff.2 ⟨by rw [hf]; nofun, ?_⟩
  show (s.world.evict p r).2.core.mappings.table.find? r = none
  rw [World.evict_listed h.pendingHandles hf]
  exact Sharded.find?_erase_self ..

end System

/-! ## Handles that are used up -/

namespace Reach

variable {s : System ε} {c : Call}

/-- What holds at every later moment holds always. -/
theorem always (h : Reach p (fun _ => True) s) {P : World ε → Prop}
    (hP : ∀ m, Moves p True s.moment m → P m.world) : s.Always p P := fun _ _ hperform _ hm =>
  hP _ ((hperform.moves (.inl trivial) (fun _ _ _ => trivial) (fun _ _ => trivial) h).2.trans hm)

/-- Nothing is known of a handle that is retired, from now on. -/
theorem unknown (h : Reach p (fun _ => True) s) (hr : s.moment.Retired r) :
    s.Always p (World.Unknown p r) := by
  have hpending : r ∉ s.moment.world.core.mappings.pendingHandles := by
    rw [show s.moment.world.core.mappings.pendingHandles = [] from h.pendingHandles]
    exact List.not_mem_nil
  refine h.always fun m hm => ?_
  obtain ⟨hretired, hpending⟩ := Moves.keeps
    (I := fun m => m.Retired r ∧ r ∉ m.world.core.mappings.pendingHandles)
    (fun _ _ hm ⟨hr, hn⟩ => ⟨hm.retired hr, hm.not_pending hr.bound hn⟩) hm ⟨hr, hpending⟩
  exact .of_table hretired.table hpending

/-- A region that has left the table never comes back. -/
theorem retired_of_removes (h : Reach p (fun _ => True) s) (hr : s.removes p c r) :
    (s.perform p c).moment.Retired r := by
  obtain ⟨hbefore, hafter⟩ := System.removes_iff.1 hr
  obtain ⟨use, hf⟩ := Option.ne_none_iff_exists'.1 hbefore
  have hlt := (h.any_accounted.keyed.regions.registered r use hf).2
  exact ⟨hafter, Nat.lt_of_lt_of_le hlt (h.any_moves c).handles_le, nofun⟩

/-- What a map leaves: it has used its handle up, and an error leaves no region. -/
theorem takes (h : Reach p (fun _ => True) s) {owner : Pid} {address : GpuAddr} {length : Nat}
    (hmap : c.map? = some (owner, address, length)) (hr : s.takes? c = some r) :
    r.id < (s.perform p c).world.core.mappings.handles.next ∧
      World.Answers r s.world.core.mappings.table
        (s.perform p c).world.core.mappings.table (s.world.map p owner address length).1 := by
  obtain ⟨hvalid, rfl⟩ := (System.takes?_eq_some_iff hmap).1 hr
  obtain ⟨m, hcore, hends, hanswers⟩ :=
    World.map_answers p owner (Mappings.pending_eq_nil h.pendingHandles) hvalid
  rw [(System.perform_core_of_map? p hmap s).2, hcore]
  refine ⟨?_, hanswers⟩
  show _ < m.handles.next
  rw [hends.handles]
  exact Nat.lt_succ_self _

/-- A map that fails leaves its handle without a region, for good. -/
theorem retired_of_wastes (h : Reach p (fun _ => True) s) (hr : s.wastes? p c = some r) :
    (s.perform p c).moment.Retired r := by
  obtain ⟨⟨owner, address, length⟩, hmap, hfails⟩ := Option.bind_eq_some_iff.1 hr
  dsimp only at hfails
  rcases hanswer : (s.world.map p owner address length).1 with e | mapping <;> rw [hanswer] at hfails
  · obtain ⟨hbound, hsame⟩ := h.takes hmap hfails
    obtain ⟨-, rfl⟩ := (System.takes?_eq_some_iff hmap).1 hfails
    rw [hanswer] at hsame
    refine ⟨?_, hbound, nofun⟩
    have hnew := h.any_accounted.keyed.regions.use?_eq_none
      (h := s.world.core.mappings.begin.1) (Nat.le_refl _)
    exact (congrArg (Sharded.find? · _) hsame).trans (Option.or_eq_none_iff.1 hnew).1
  · cases hfails

/-- A task that has been cleaned up is not found again. -/
theorem finished (h : Reach p (fun _ => True) s)
    (hid : .logged (.completed id) ∈ s.world.ambient.history) :
    s.Always p (World.Finished p id) := by
  refine h.always fun m hm => ?_
  have hi : m.Accounted ∧ m.Closed := Moves.keeps (I := fun m => m.Accounted ∧ m.Closed)
    (fun _ _ hm ⟨ha, hc⟩ => ⟨hm.accounted ha, hm.closed ha.counted hc⟩) hm
    (h.any_invariant (I := fun m => m.Accounted ∧ m.Closed)
      (fun _ _ _ => ⟨Moment.accounted_fresh .., nofun⟩)
      fun _ _ hm ⟨ha, hc⟩ => ⟨hm.accounted ha, hm.closed ha.counted hc⟩)
  have hlog : id ∈ m.world.record Event.completes :=
    World.mem_completes.2 (hm.history.subset hid)
  exact .of_table (hi.2 id (List.mem_append_right _ hlog)).1

end Reach

/-! ## Runs -/

namespace Steps

variable {steps : List (System ε × Call)} {s : System ε}

/-- Every step of a run is made in a system that the run leads to, and leads on to the last one. -/
theorem of_mem (h : Steps p steps s) {e : System ε × Call} (he : e ∈ steps) :
    Reach p (fun _ => True) e.1 ∧ Moves p True (e.1.perform p e.2).moment s.moment := by
  induction h with
  | start h => cases he
  | @call steps s before c ih =>
    rcases List.mem_cons.1 he with rfl | he
    · exact ⟨before.reach, .refl⟩
    · exact ⟨(ih he).1, (ih he).2.trans (before.reach.any_moves c)⟩
  | outside before x ih => exact ⟨(ih he).1, (ih he).2.tail (.outside _ _ x)⟩

/-- Every handle that has been taken has been taken once. -/
theorem taken (h : Steps p steps s) : (steps.filterMap fun e => e.1.takes? e.2).Nodup ∧
    ∀ r ∈ steps.filterMap fun e => e.1.takes? e.2, r.id < s.world.core.mappings.handles.next := by
  induction h with
  | start h => exact ⟨List.nodup_nil, nofun⟩
  | @call steps s before c ih =>
    obtain ⟨hnodup, hbound⟩ := ih
    have hle := (before.reach.any_moves c).handles_le
    have hold : ∀ r ∈ steps.filterMap fun e => e.1.takes? e.2,
        r.id < (s.perform p c).world.core.mappings.handles.next :=
      fun r hr => Nat.lt_of_lt_of_le (hbound r hr) hle
    rw [List.filterMap_cons]
    rcases hr : s.takes? c with _ | r
    · exact ⟨hnodup, hold⟩
    · obtain ⟨⟨owner, address, length⟩, hmap, -⟩ := Option.bind_eq_some_iff.1 hr
      refine ⟨List.nodup_cons.2 ⟨fun hmem => ?_, hnodup⟩,
        List.forall_mem_cons.2 ⟨(before.reach.takes hmap hr).1, hold⟩⟩
      obtain ⟨-, rfl⟩ := (System.takes?_eq_some_iff hmap).1 hr
      exact Nat.lt_irrefl _ (hbound _ hmem)
  | outside before x ih => exact ih

/-- A region leaves the table once. -/
theorem removed (h : Steps p steps s) (r : Handle) :
    (steps.countP fun e => e.1.removes p e.2 r) = 0 ∨
      (steps.countP fun e => e.1.removes p e.2 r) = 1 ∧ s.moment.Retired r := by
  induction h with
  | start h => exact .inl rfl
  | @call steps s before c ih =>
    rw [List.countP_cons]
    by_cases hr : s.removes p c r
    · -- What has left the table is not there to be taken out again.
      have hnone : (steps.countP fun e => e.1.removes p e.2 r) = 0 := ih.resolve_right fun hi =>
        (System.removes_iff.1 hr).1 hi.2.table
      rw [hnone, if_pos hr]
      exact .inr ⟨rfl, before.reach.retired_of_removes hr⟩
    · rw [if_neg hr, Nat.add_zero]
      exact ih.imp_right fun ⟨hone, hretired⟩ =>
        ⟨hone, Moves.keeps (fun _ _ hm => hm.retired) (before.reach.any_moves c) hretired⟩
  | outside before x ih => exact ih.imp_right fun ⟨hone, hretired⟩ => ⟨hone, { hretired with }⟩

/-- **Handles and task ids are used once.** After any run, with tasks cleaned up by hand at any time:

* No two maps have taken the same handle, and a map that succeeds answers with the one it has taken.
* A handle leaves the table once at most. A teardown succeeds, at once or by waiting, if and only if
  it takes the handle out of the table, and so does a notice that finds it there.
* Once a handle has left the table, though its teardown may still wait, or the map that took it has
  failed, no look-up, no teardown and no notice finds it, whatever is called and at any moment of
  any call. Nobody waits for it, and nothing changes but the log.
* The tasks that have been admitted and are not registered are those that have been cleaned up. A
  task that has been cleaned up is never found again, in the same way. -/
theorem handles_once (h : Steps p steps s) :
    (steps.filterMap fun e => e.1.takes? e.2).Nodup ∧
    (∀ e ∈ steps, ∀ owner address length mapping, e.2.map? = some (owner, address, length) →
      (e.1.world.map p owner address length).1 = .ok mapping →
        e.1.takes? e.2 = some mapping.handle) ∧
    (∀ r, (steps.countP fun e => e.1.removes p e.2 r) ≤ 1) ∧
    (∀ e ∈ steps, ∀ r,
      (∀ cause, e.2.teardown? = some (r, cause) →
        (e.1.removes p e.2 r ↔ ∀ error, (e.1.world.teardown p r cause).1 ≠ .returned (.error error))) ∧
      (e.1.takesBack? e.2 = some r → e.1.removes p e.2 r)) ∧
    (∀ e ∈ steps, ∀ r, e.1.removes p e.2 r ∨ e.1.wastes? p e.2 = some r →
      (e.1.perform p e.2).Always p (World.Unknown p r)) ∧
    (∀ id ∈ s.world.core.tasks.admittedIds, s.world.core.tasks.contains id = false ↔
      .logged (.completed id) ∈ s.world.ambient.history) ∧
    ∀ id, .logged (.completed id) ∈ s.world.ambient.history →
      s.Always p (World.Finished p id) := by
  refine ⟨h.taken.1, fun e he owner address length mapping hmap hok => ?_, fun r => ?_,
    fun e he r => ⟨fun cause hc => System.removes_teardown hc,
      System.removes_evict (h.of_mem he).1⟩, fun e he r hr => ?_, fun id hid => ⟨fun hgone => ?_,
      fun hlog => (h.reach.finished hlog [] s (.done s) s.moment .refl).contains⟩,
    fun id => h.reach.finished⟩
  · have hvalid : ¬(length = 0 ∨ Word.bound ≤ address.raw + length) := fun hinvalid => by
      rw [World.map_invalid p owner hinvalid] at hok
      cases hok
    have htakes := (System.takes?_eq_some_iff (s := e.1) hmap).2 ⟨hvalid, rfl⟩
    have hanswer := ((h.of_mem he).1.takes hmap htakes).2
    rw [hok] at hanswer
    exact htakes.trans (congrArg some (Eq.symm hanswer))
  · rcases h.removed r with hzero | ⟨hone, -⟩
    · exact hzero ▸ Nat.zero_le 1
    · exact hone ▸ Nat.le_refl 1
  · have hreach := (h.of_mem he).1
    refine (hreach.call e.2 trivial).unknown ?_
    exact hr.elim hreach.retired_of_removes hreach.retired_of_wastes
  · refine World.mem_completes.1 (h.reach.tallied.ended_of_admitted hid fun hregistered => ?_)
    have hnone : s.world.core.tasks.table.find? id = none := by
      simpa [Tasks.contains, Sharded.contains] using hgone
    exact hregistered hnone

end Steps

/-- A bench whose device takes the range of the first map back, with a copy that has ended and a
teardown that waits for a caller. -/
def Bench.usedUp : System Bench :=
  System.mk (.fresh {} {} taking) []
    |>.perform platform (.map ⟨1⟩ ⟨0x10000⟩ 0x10000)
    |>.perform platform (.map ⟨1⟩ ⟨0x20000⟩ 0x10000)
    |>.perform platform (.copyAsync ⟨⟨2⟩, none, 0, [.host 0x5000 0x1000]⟩)
    |>.perform platform (.acquire ⟨2⟩)
    |>.perform platform (.teardown ⟨2⟩ .unmap)

/-- Neither the handle of the map that has failed nor that of the region that drains is found again,
and nor is the task. -/
theorem Steps.handles_once_usedUp :
    ∃ steps, Steps Bench.platform steps Bench.usedUp ∧
      (steps.filterMap fun e => e.1.takes? e.2) = [⟨2⟩, ⟨1⟩] ∧
      (steps.filterMap fun e => e.1.wastes? Bench.platform e.2) = [⟨1⟩] ∧
      (steps.countP fun e => e.1.removes Bench.platform e.2 ⟨2⟩) = 1 ∧
      Bench.usedUp.world.core.mappings.draining.entries.map Prod.fst = [⟨2⟩] ∧
      Bench.usedUp.Always Bench.platform (World.Unknown Bench.platform ⟨2⟩) ∧
      Bench.usedUp.Always Bench.platform (World.Finished Bench.platform ⟨1⟩) := by
  have h : Steps Bench.platform _ Bench.usedUp :=
    .call (.call (.call (.call (.call (@Steps.start _ _ {} {} Bench.taking _ rfl) _) _) _) _) _
  obtain ⟨-, -, -, -, hunknown, -, hfinished⟩ := handles_once h
  exact ⟨_, h, by decide +kernel, by decide +kernel, by decide +kernel, by decide +kernel,
    hunknown _ (List.mem_cons_self ..) ⟨2⟩ (.inl (by decide +kernel)),
    hfinished ⟨1⟩ (by decide +kernel)⟩

end PeerDma
