import PeerDma.World.Tasks

/-!
# The end of a pin

A region is unpinned at once or by a parked call that comes back. Both ask the surroundings, so
that what they do to an instance and to its history depends on the answers by its looks only. This
file has the equations: which regions are forgotten, and which events are added.

* `World.events`: the history without the log lines that nothing rests on. `World.record` reads
  one kind of thing off it.
* `Rest.region?`, `Rest.forget`: what a parked call does once it is woken.
* `World.unpinRegion_core`, `World.resume_core`: the instance afterwards.
* `World.unpinRegion_record`, `World.resume_record`, `World.release_record`: what is on record.
-/

namespace PeerDma

/-! ## Events -/

/-- Whether an entry of the log says nothing about a task that ends or a count that fails. -/
def Log.Entry.isPlain : Log.Entry → Bool
  | refUnderflow _ => false
  | completed _ => false
  | _ => true

/-- Whether an event is more than a plain line of the log. -/
def Event.isNotable : Event → Bool
  | logged e => !e.isPlain
  | _ => true

/-- Events that say nothing about something can be left out. -/
theorem Event.flatMap_filter {α : Type} {q : Event → Bool} {f : Event → List α}
    (hf : ∀ e, q e = false → f e = []) (l : List Event) : (l.filter q).flatMap f = l.flatMap f := by
  induction l with
  | nil => rfl
  | cons e l ih =>
    by_cases hq : q e
    · rw [List.filter_cons_of_pos hq, List.flatMap_cons, List.flatMap_cons, ih]
    · rw [List.filter_cons_of_neg hq, List.flatMap_cons, hf e (by simpa using hq), List.nil_append, ih]

namespace World

variable {ε : Type}

/-- The notable events, the last one first. -/
def events (w : World ε) : List Event := w.ambient.history.filter Event.isNotable

theorem mem_events {w : World ε} {e : Event} (he : e.isNotable) :
    e ∈ w.events ↔ e ∈ w.ambient.history := by
  simp [events, List.mem_filter, he]

theorem events_log (w : World ε) {e : Log.Entry} (he : e.isPlain) : (w.log e).events = w.events :=
  List.filter_cons_of_neg (by simp [Event.isNotable, he])

/-- What the notable events say about something, the last one first. -/
def record {α : Type} (f : Event → List α) (w : World ε) : List α := w.events.flatMap f

theorem mem_record {α : Type} {f : Event → List α} {w : World ε} {x : α}
    (hf : ∀ e, x ∈ f e → e.isNotable) : x ∈ w.record f ↔ ∃ e ∈ w.ambient.history, x ∈ f e := by
  simp only [record, List.mem_flatMap]
  refine exists_congr fun e => and_congr_left fun hx => mem_events (hf e hx)

/-- A record that names the events of one kind. -/
theorem mem_record_iff {α : Type} {f : Event → List α} {c : α → Event}
    (hf : ∀ e x, x ∈ f e ↔ e = c x) {w : World ε} {x : α} (hx : (c x).isNotable) :
    x ∈ w.record f ↔ c x ∈ w.ambient.history := by
  rw [mem_record fun e he => (hf e x).1 he ▸ hx]
  constructor
  · rintro ⟨e, he, hfe⟩
    exact (hf e x).1 hfe ▸ he
  · exact fun he => ⟨c x, he, (hf _ x).2 rfl⟩

theorem record_log {α : Type} (f : Event → List α) (w : World ε) {e : Log.Entry}
    (he : e.isPlain) : (w.log e).record f = w.record f :=
  congrArg (List.flatMap f) (events_log w he)

end World

/-! ## What is left of a parked call -/

namespace Rest

/-- The region that a parked call unpins once it is woken. -/
def region? : Rest → Option Region
  | teardown region _ => some region
  | eviction region => some region
  | wait => none
  | copy _ => none

/-- What a parked call unpins once it is woken, on record. -/
def unpinned? : Rest → Option Event
  | teardown region cause => some (.unpinned region.handle region.base region.table cause)
  | eviction region => some (.unpinned region.handle region.base region.table .evicted)
  | wait => none
  | copy _ => none

/-- The regions after a parked call has been woken. -/
def forget : Rest → Mappings → Mappings
  | teardown region _, m => m.forget region.handle
  | eviction region, m => (m.forget region.handle).countEvicted
  | wait, m => m
  | copy _, m => m

variable (rest : Rest) (m : Mappings)

@[simp] theorem table_forget : (rest.forget m).table = m.table := by cases rest <;> rfl

@[simp] theorem handles_forget : (rest.forget m).handles = m.handles := by cases rest <;> rfl

variable {rest}

theorem forget_of_none (h : rest.region? = none) : rest.forget m = m := by
  cases rest with
  | teardown region cause => cases h
  | eviction region => cases h
  | wait => rfl
  | copy task => rfl

theorem draining_forget {r : Region} (h : rest.region? = some r) :
    (rest.forget m).draining = m.draining.erase r.handle := by
  cases rest with
  | teardown region cause => obtain rfl := Option.some.inj h; rfl
  | eviction region => obtain rfl := Option.some.inj h; rfl
  | wait => cases h
  | copy task => cases h

theorem unpinned?_of_none (h : rest.region? = none) : rest.unpinned? = none := by
  cases rest with
  | teardown region cause => cases h
  | eviction region => cases h
  | wait => rfl
  | copy task => rfl

theorem unpinned?_of_some {r : Region} (h : rest.region? = some r) :
    ∃ cause, rest.unpinned? = some (.unpinned r.handle r.base r.table cause) := by
  cases rest with
  | teardown region cause => obtain rfl := Option.some.inj h; exact ⟨cause, rfl⟩
  | eviction region => obtain rfl := Option.some.inj h; exact ⟨.evicted, rfl⟩
  | wait => cases h
  | copy task => cases h

end Rest

/-! ## Unpinning, coming back, releasing -/

namespace World

variable {ε : Type} (p : Platform ε)

theorem unpinRegion_core (r : Region) (cause : Cause) (w : World ε) :
    (w.unpinRegion p r cause).core =
      { w.core with mappings := w.core.mappings.forget r.handle } := by
  unfold unpinRegion
  dsimp only
  cases (w.ambient.unpin p r.handle r.base r.table cause).1 <;> rfl

theorem unpinRegion_events (r : Region) (cause : Cause) (w : World ε) :
    (w.unpinRegion p r cause).events = .unpinned r.handle r.base r.table cause :: w.events := by
  unfold unpinRegion
  dsimp only
  cases (w.ambient.unpin p r.handle r.base r.table cause).1 <;> rfl

theorem unpinRegion_record {α : Type} (f : Event → List α) (r : Region) (cause : Cause)
    (w : World ε) :
    (w.unpinRegion p r cause).record f =
      f (.unpinned r.handle r.base r.table cause) ++ w.record f := by
  unfold record
  rw [unpinRegion_events, List.flatMap_cons]

theorem resume_core (s : Sleeper) (w : World ε) :
    (w.resume p s).core = { w.core with mappings := s.rest.forget w.core.mappings } := by
  unfold resume unpinEvicted
  cases s.rest with
  | teardown r cause => exact unpinRegion_core p r cause w
  | eviction r =>
    show { (w.unpinRegion p r .evicted).core with
      mappings := (w.unpinRegion p r .evicted).core.mappings.countEvicted } = _
    rw [unpinRegion_core]
    rfl
  | wait => rfl
  | copy task => rfl

theorem resume_events (s : Sleeper) (w : World ε) :
    (w.resume p s).events =
      .resumed s.waiter s.rest.reply :: (s.rest.unpinned?.toList ++ w.events) := by
  unfold resume unpinEvicted
  cases s.rest with
  | teardown r cause => exact congrArg _ (unpinRegion_events p r cause w)
  | eviction r => exact congrArg _ (unpinRegion_events p r .evicted w)
  | wait => rfl
  | copy task => rfl

theorem resume_record {α : Type} (f : Event → List α) (s : Sleeper) (w : World ε) :
    (w.resume p s).record f =
      f (.resumed s.waiter s.rest.reply) ++ (s.rest.unpinned?.toList.flatMap f ++ w.record f) := by
  unfold record
  rw [resume_events, List.flatMap_cons, List.flatMap_append]

/-- A parked call that comes back adds nothing to a record of other things. -/
theorem resume_record_eq {α : Type} {f : Event → List α} (s : Sleeper) (w : World ε)
    (hr : ∀ waiter reply, f (.resumed waiter reply) = [])
    (hu : ∀ h base table cause, f (.unpinned h base table cause) = []) :
    (w.resume p s).record f = w.record f := by
  rw [resume_record, hr, List.nil_append]
  cases hregion : s.rest.region? with
  | none => rw [Rest.unpinned?_of_none hregion]; rfl
  | some r =>
    obtain ⟨cause, he⟩ := Rest.unpinned?_of_some hregion
    rw [he, Option.toList_some, List.flatMap_singleton, hu, List.nil_append]

theorem release_events (pins : PinSet) (w : World ε) :
    (w.releaseAll p [pins]).events =
      if pins.isEmpty then w.events else .released pins.pages :: w.events := by
  show List.filter _ (w.ambient.release p pins).history = _
  unfold Ambient.release
  split <;> rfl

theorem release_record {α : Type} {f : Event → List α} (hf : f (.released []) = [])
    (pins : PinSet) (w : World ε) :
    (w.releaseAll p [pins]).record f = f (.released pins.pages) ++ w.record f := by
  unfold record
  rw [release_events]
  split
  · next h => rw [List.isEmpty_iff.1 h, hf, List.nil_append]
  · rfl

end World

end PeerDma
