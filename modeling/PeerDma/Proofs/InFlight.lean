import Mathlib.Algebra.Order.Group.Multiset
import PeerDma.Proofs.Coverage
import PeerDma.Proofs.References

/-!
# Memory in flight

If nobody but the library itself cleans tasks up, no submission in flight loses the memory that it
reads or writes. Its task is registered, since a submission that has not ended is counted; the task
has a reference to its region, which keeps the pin; and it has the page references, since each that
has been obtained is with a task until it is given back.

* `Flights.Tracked`: what a channel has taken and not ended is in flight.
* `Moment.Closed`: a task on record as over is not registered again.
* `Moment.Balanced`: where the page references are that have not been given back.
* `Reach.copies_keep_memory`: at every moment of a run, submissions in flight have their memory.
-/

namespace PeerDma

variable {ε : Type} {p : Platform ε} {stray : Prop} {m m' : Moment ε}

/-! ## What is on record -/

namespace Event

/-- The submission that an event says has been taken. -/
def submits : Event → List Flight
  | submitted flight => [flight]
  | _ => []

/-- The submission that an event says has ended. -/
def lands : Event → List Flight
  | landed flight => [flight]
  | _ => []

/-- The task that an event says is over. -/
def completes : Event → List TaskId
  | logged (.completed id) => [id]
  | _ => []

/-- The page references that an event says have been obtained. -/
def obtains : Event → List HostPage
  | hostPinned _ _ pages => pages
  | cacheHit _ _ page => [page]
  | _ => []

/-- The page references that an event says have been given back. -/
def returns : Event → List HostPage
  | released pages => pages
  | _ => []

end Event

/-! ## Submissions that have been taken -/

/-- Tokens are used once, and what a channel has taken is in flight until it has ended. -/
structure Flights.Tracked (fs : Flights) (offered : Option Flight) (submitted landed : List Flight) :
    Prop where
  bound : ∀ f ∈ fs.flights, f.token.serial < fs.next
  nodup : (fs.flights.map Flight.token).Nodup
  offered : ∀ f, offered = some f → f ∈ fs.flights
  submitted : ∀ f ∈ submitted, f ∈ fs.flights ∨ f ∈ landed

/-- What is on record about submissions is so. -/
def Moment.Tracked (m : Moment ε) : Prop :=
  m.world.core.flights.Tracked m.hand.offered (m.world.record Event.submits)
    (m.world.record Event.lands)

namespace Flights.Tracked

variable {fs fs' : Flights} {offered : Option Flight} {submitted landed : List Flight} {f : Flight}

theorem start (hi : fs.Tracked none submitted landed) (hf : f.token = ⟨fs.next⟩) :
    (Flights.mk (fs.next + 1) (f :: fs.flights)).Tracked (some f) submitted landed where
  bound := by
    refine List.forall_mem_cons.2 ⟨?_, fun g hg => Nat.lt_succ_of_lt (hi.bound g hg)⟩
    rw [hf]
    exact Nat.lt_succ_self _
  nodup := by
    refine List.nodup_cons.2 ⟨fun hmem => ?_, hi.nodup⟩
    obtain ⟨g, hg, he⟩ := List.mem_map.1 hmem
    have hlt := hi.bound g hg
    rw [he, hf] at hlt
    exact Nat.lt_irrefl _ hlt
  offered g he := by
    obtain rfl := Option.some.inj he
    exact List.mem_cons_self ..
  submitted g hg := (hi.submitted g hg).imp_left (List.mem_cons_of_mem _)

theorem take (hi : fs.Tracked (some f) submitted landed) :
    fs.Tracked none (f :: submitted) landed where
  bound := hi.bound
  nodup := hi.nodup
  offered := nofun
  submitted := List.forall_mem_cons.2 ⟨.inl (hi.offered f rfl), hi.submitted⟩

theorem land (hi : fs.Tracked none submitted landed) {token : Token}
    (hland : fs.land? token = some (f, fs')) : fs'.Tracked none submitted (f :: landed) := by
  obtain ⟨hmem, htoken, rfl⟩ := Flights.land?_eq_some hland
  refine ⟨fun g hg => hi.bound g (List.mem_of_mem_filter hg),
    hi.nodup.sublist (List.filter_sublist.map _), nofun, fun g hg => ?_⟩
  rcases hi.submitted g hg with hg | hg
  · by_cases he : g.token = token
    · -- No other submission has the token.
      obtain rfl := List.inj_on_of_nodup_map hi.nodup hg hmem (he.trans htoken.symm)
      exact .inr (List.mem_cons_self ..)
    · exact .inl (List.mem_filter.2 ⟨hg, by simpa using he⟩)
  · exact .inr (List.mem_cons_of_mem _ hg)

end Flights.Tracked

theorem Move.tracked (h : Move p stray m m') (hi : m.Tracked) : m'.Tracked := by
  unfold Moment.Tracked at hi ⊢
  cases h with
  | log w k e he =>
    rw [World.record_log _ _ he, World.record_log _ _ he]
    exact hi
  | detach w k h use map cause found unused =>
    dsimp only
    rw [World.unpinRegion_core, World.unpinRegion_record, World.unpinRegion_record]
    exact hi
  | resume w k s =>
    dsimp only
    rw [World.resume_core, World.resume_record_eq p s w (fun _ _ => rfl) fun _ _ _ _ => rfl,
      World.resume_record_eq p s w (fun _ _ => rfl) fun _ _ _ _ => rfl]
    exact hi
  | release w k pins =>
    dsimp only
    rw [World.release_record p rfl, World.release_record p rfl]
    exact hi
  | offer w k id r pages run inside backed => exact hi.start rfl
  | submitted w k f => exact hi.take
  | refused w k f => exact { hi with offered := nofun }
  | land w k token f flights found => exact hi.land found
  | _ => exact { hi with }

/-! ## Tasks that are over -/

/-- Tasks that have been taken out of the table stay out of it, those on record included. -/
def Moment.Closed (m : Moment ε) : Prop :=
  ∀ id ∈ m.hand.closing ++ m.world.record Event.completes,
    m.world.core.tasks.table.find? id = none ∧ id.id < m.world.core.tasks.ids.next

theorem Move.closed (h : Move p stray m m') (hc : m.Counted) (hi : m.Closed) : m'.Closed := by
  have hids := hc.ids
  unfold Moment.Closed at hi ⊢
  cases h with
  | log w k e he =>
    rw [World.record_log _ _ he]
    exact hi
  | detach w k h use map cause found unused =>
    dsimp only
    rw [World.unpinRegion_core, World.unpinRegion_record]
    exact hi
  | resume w k s =>
    dsimp only
    rw [World.resume_core, World.resume_record_eq p s w (fun _ _ => rfl) fun _ _ _ _ => rfl]
    exact hi
  | release w k pins =>
    dsimp only
    rw [World.release_record p rfl]
    exact hi
  | install w k id rest displaced tasks found waits =>
    obtain ⟨task, hf, rfl, rfl⟩ := Tasks.install?_eq_some found
    exact fun other ho => (hi other ho).imp_left (Sharded.find?_insert_eq_none hf)
  | retain w k id r pins tasks found =>
    obtain ⟨task, hf, rfl⟩ := Tasks.retain?_eq_some found
    exact fun other ho => (hi other ho).imp_left (Sharded.find?_insert_eq_none hf)
  | enroll w k h task use new nobody nothing found same =>
    intro other ho
    obtain ⟨hnone, hlt⟩ := hi other ho
    refine ⟨(Sharded.find?_insert ..).trans ((if_neg ?_).trans hnone), Nat.lt_succ_of_lt hlt⟩
    rintro rfl
    rw [new] at hlt
    exact Nat.lt_irrefl _ hlt
  | remove w k id task tasks found =>
    obtain ⟨hf, rfl⟩ := Tasks.remove?_eq_some found
    refine List.forall_mem_cons.2 ⟨⟨Sharded.find?_erase_self .., hids id task hf⟩, fun other ho => ?_⟩
    obtain ⟨hnone, hlt⟩ := hi other ho
    exact ⟨Sharded.find?_erase_eq_none hnone, hlt⟩
  | completed w k id =>
    intro other ho
    exact hi other (List.perm_middle.mem_iff.1 ho)
  | endLaunch w k l =>
    show ∀ id ∈ _, (w.core.tasks.finish l.task).2.table.find? id = none ∧
      id.id < (w.core.tasks.finish l.task).2.ids.next
    rw [Tasks.table_finish, Tasks.ids_finish]
    exact hi
  | land w k token f flights found =>
    show ∀ id ∈ _, (w.core.tasks.finish f.task).2.table.find? id = none ∧
      id.id < (w.core.tasks.finish f.task).2.ids.next
    rw [Tasks.table_finish, Tasks.ids_finish]
    exact hi
  | _ => exact hi

/-! ## Page references -/

/-- Every page reference that has been obtained has been given back, is with a registered task, or
is in hand. -/
def Moment.Balanced (m : Moment ε) : Prop :=
  (↑(m.world.record Event.obtains) : Multiset HostPage) =
    ↑(m.world.record Event.returns) + m.world.core.tasks.pages + m.hand.pages

theorem Move.balanced (h : Move p stray m m') (hc : m.Counted) (hi : m.Balanced) : m'.Balanced := by
  unfold Moment.Balanced at hi ⊢
  cases h with
  | log w k e he =>
    rw [World.record_log _ _ he, World.record_log _ _ he]
    exact hi
  | detach w k h use map cause found unused =>
    dsimp only
    rw [World.unpinRegion_core, World.unpinRegion_record, World.unpinRegion_record]
    exact hi
  | resume w k s =>
    dsimp only
    rw [World.resume_core, World.resume_record_eq p s w (fun _ _ => rfl) fun _ _ _ _ => rfl,
      World.resume_record_eq p s w (fun _ _ => rfl) fun _ _ _ _ => rfl]
    exact hi
  | install w k id rest displaced tasks found waits =>
    exact hi.trans (congrArg (_ + · + _) (Tasks.pages_install found).symm)
  | enroll w k h task use new nobody nothing found same =>
    have hnone : w.core.tasks.table.find? task.id = none := new ▸ hc.find?_allocate
    have hempty : task.pages = [] := by rw [Task.pages, nothing, List.flatMap_nil]
    have hpages := Tasks.pages_register hnone
    rw [hempty, Multiset.coe_nil, Multiset.zero_add] at hpages
    exact hi.trans (congrArg (_ + · + _) hpages.symm)
  | remove w k id task tasks found =>
    have hpages := Tasks.pages_remove found
    dsimp only at hi ⊢
    rw [hpages] at hi
    refine hi.trans ?_
    show _ = ↑(w.record Event.returns) + tasks.pages + (↑task.pages + k.pages)
    ac_rfl
  | release w k pins =>
    dsimp only
    rw [World.release_record p rfl, World.release_record p rfl]
    refine hi.trans ?_
    show _ = (↑(pins.pages ++ w.record Event.returns) : Multiset HostPage) + w.core.tasks.pages +
      k.pages
    rw [← Multiset.coe_add]
    dsimp only
    ac_rfl
  | retain w k id r pins tasks found =>
    refine hi.trans ?_
    show _ = ↑(w.record Event.returns) + tasks.pages + k.pages
    rw [Tasks.pages_retain found]
    dsimp only
    ac_rfl
  | endLaunch w k l =>
    exact hi.trans (congrArg (_ + · + _) (Tasks.pages_congr (Tasks.table_finish _ _)).symm)
  | land w k token f flights found =>
    exact hi.trans (congrArg (_ + · + _) (Tasks.pages_congr (Tasks.table_finish _ _)).symm)
  | hostPinned w k address count pages =>
    show (↑(pages ++ w.record Event.obtains) : Multiset HostPage) = _
    rw [← Multiset.coe_add, hi]
    dsimp only
    ac_rfl
  | cacheHit w k file index page =>
    show (page ::ₘ ↑(w.record Event.obtains) : Multiset HostPage) = _
    rw [hi, ← Multiset.add_cons]
    rfl
  | _ => exact hi

/-! ## At every moment -/

/-- By a history, the pin of a region has not been handed back, and of the page references that
have been obtained, at least the given ones have not been given back. -/
structure Region.Intact (r : Region) (pages : List HostPage) (history : List Event) : Prop where
  made : .pinned r.handle r.base r.table ∈ history
  pinned : ∀ base table cause, .unpinned r.handle base table cause ∉ history
  held : (↑(history.flatMap Event.returns) + ↑pages : Multiset HostPage) ≤
    ↑(history.flatMap Event.obtains)

namespace Flight

/-- By a history, a channel has taken a submission and not used its token up. -/
def Pending (f : Flight) (history : List Event) : Prop :=
  .submitted f ∈ history ∧ .landed f ∉ history

/-- By a history, the task of a submission is not over, and the memory that it copies from and to
is pinned. -/
def Backed (f : Flight) (pageSize : Nat) (history : List Event) : Prop :=
  .logged (.completed f.task) ∉ history ∧
    ∃ r pages, f.request.InPage r ∧ f.extent.ReadsFrom pageSize pages ∧ r.Intact pages history

end Flight

/-- What submissions in flight rest on. -/
structure Moment.Steady (m : Moment ε) : Prop where
  accounted : m.Accounted
  covered : m.Covered
  tracked : m.Tracked
  closed : m.Closed
  balanced : m.Balanced

theorem Move.steady (h : Move p False m m') (hi : m.Steady) : m'.Steady where
  accounted := h.accounted hi.accounted
  covered := h.covered not_false hi.accounted.counted hi.covered
  tracked := h.tracked hi.tracked
  closed := h.closed hi.accounted.counted hi.closed
  balanced := h.balanced hi.accounted.counted hi.balanced

theorem Moment.steady_fresh (placement : Placement) (config : Config) (x : ε) :
    Moment.Steady ⟨.fresh placement config x, {}⟩ where
  accounted := Moment.accounted_fresh placement config x
  covered := ⟨nofun, fun _ => Nat.le_refl _, nofun, nofun⟩
  tracked := ⟨nofun, List.nodup_nil, nofun, nofun⟩
  closed := nofun
  balanced := by
    have hpages : (World.fresh placement config x).core.tasks.pages = 0 :=
      congrArg (fun l : List (TaskId × Task) => (↑(l.flatMap fun e => e.2.pages) : Multiset HostPage))
        (Sharded.toList_empty ..)
    show (0 : Multiset HostPage) = 0 + (World.fresh placement config x).core.tasks.pages + 0
    rw [hpages]
    rfl

/-! ### What is on record is in the history -/

theorem World.mem_submits {w : World ε} {f : Flight} :
    f ∈ w.record Event.submits ↔ .submitted f ∈ w.ambient.history := by
  refine mem_record_iff (fun e x => ?_) rfl
  cases e <;> simp [Event.submits, eq_comm]

theorem World.mem_lands {w : World ε} {f : Flight} :
    f ∈ w.record Event.lands ↔ .landed f ∈ w.ambient.history := by
  refine mem_record_iff (fun e x => ?_) rfl
  cases e <;> simp [Event.lands, eq_comm]

theorem World.mem_completes {w : World ε} {id : TaskId} :
    id ∈ w.record Event.completes ↔ .logged (.completed id) ∈ w.ambient.history := by
  refine mem_record_iff (c := fun id => .logged (.completed id)) (fun e x => ?_) rfl
  cases e with
  | logged entry => cases entry <;> simp [Event.completes, eq_comm]
  | _ => simp [Event.completes]

theorem World.record_obtains (w : World ε) :
    w.record Event.obtains = w.ambient.history.flatMap Event.obtains :=
  Event.flatMap_filter (fun e he => by cases e <;> first | rfl | cases he) _

theorem World.record_returns (w : World ε) :
    w.record Event.returns = w.ambient.history.flatMap Event.returns :=
  Event.flatMap_filter (fun e he => by cases e <;> first | rfl | cases he) _

/-- What a registered task has is there. -/
theorem Moment.Accounted.intact (hi : m.Accounted) (hb : m.Balanced) {id : TaskId} {task : Task}
    (ht : m.world.core.tasks.table.find? id = some task) :
    ∃ use, m.world.core.mappings.use? task.holds.region.handle = some use ∧
      use.region = task.holds.region ∧ 0 < use.refs ∧
      task.holds.region.Intact task.pages m.world.ambient.history := by
  obtain ⟨use, hu, hregion⟩ := hi.counted.targets id task ht
  have hcount := hi.counted.refs task.holds.region.handle
  rw [hu, Option.elim_some] at hcount
  have hpos := Tasks.onRegion_pos ht
  obtain ⟨hmade, hnot⟩ := (hi.onRecord.owns_iff task.holds.region.handle
    task.holds.region.base task.holds.region.table).1 (.inl ⟨use, hu, by rw [hregion], by rw [hregion]⟩)
  refine ⟨use, hu, hregion, by omega, World.mem_pins.1 hmade, fun base table cause he => hnot
    (World.mem_unpins.2 ⟨base, table, cause, he⟩), ?_⟩
  rw [← World.record_obtains, ← World.record_returns, hb]
  exact (Multiset.add_le_add_left (Tasks.pages_le ht)).trans (Multiset.le_add_right _ _)

namespace Moment.Steady

variable {f : Flight}

theorem mem_flights (hi : m.Steady) (hf : f.Pending m.world.ambient.history) :
    f ∈ m.world.core.flights.flights := by
  obtain ⟨hsubmitted, hlanded⟩ := hf
  exact (hi.tracked.submitted f (World.mem_submits.2 hsubmitted)).resolve_right
    fun hland => hlanded (World.mem_lands.1 hland)

theorem not_completed (hi : m.Steady) {id : TaskId} {task : Task}
    (ht : m.world.core.tasks.table.find? id = some task) :
    .logged (.completed id) ∉ m.world.ambient.history := by
  intro hlog
  obtain ⟨hnone, -⟩ := hi.closed id (List.mem_append_right _ (World.mem_completes.2 hlog))
  cases hnone.symm.trans ht

/-- What a registered task has is there. -/
theorem intact (hi : m.Steady) {id : TaskId} {task : Task}
    (ht : m.world.core.tasks.table.find? id = some task) :
    ∃ use, m.world.core.mappings.use? task.holds.region.handle = some use ∧
      use.region = task.holds.region ∧ 0 < use.refs ∧
      task.holds.region.Intact task.pages m.world.ambient.history :=
  hi.accounted.intact hi.balanced ht

/-- Submissions in flight are backed. -/
theorem backed (hi : m.Steady) (hf : f.Pending m.world.ambient.history) :
    f.Backed m.world.core.config.hostPageSize m.world.ambient.history := by
  obtain ⟨task, ht, hin, hreads⟩ := hi.covered.flights f (hi.mem_flights hf)
  obtain ⟨use, -, -, -, hintact⟩ := hi.intact ht
  exact ⟨hi.not_completed ht, task.holds.region, task.pages, hin, hreads, hintact⟩

end Moment.Steady

/-! ### At every moment before -/

/-- Whether an event bears on the memory of submissions. -/
def Event.bears : Event → Bool
  | resumed .. => false
  | e => e.isNotable

theorem Event.bears_le {e : Event} (he : e.bears) : e.isNotable := by
  cases e <;> first | rfl | exact he

namespace World

/-- The events that bear on the memory of submissions, the last one first. -/
def course (w : World ε) : List Event := w.ambient.history.filter Event.bears

theorem course_eq (w : World ε) : w.course = w.events.filter Event.bears := by
  unfold course events
  rw [List.filter_filter]
  refine List.filter_congr fun e _ => ?_
  rw [Bool.eq_iff_iff, Bool.and_eq_true]
  exact ⟨fun he => ⟨he, Event.bears_le he⟩, And.left⟩

end World

/-- A move adds one event that bears on memory, at most. What is on record as taken by a channel has
been offered to it. -/
theorem Move.course (h : Move p stray m m') :
    m'.world.course = m.world.course ∨ ∃ e, m'.world.course = e :: m.world.course ∧
      ∀ f, e = .submitted f → m.hand.offered = some f := by
  cases h with
  | log w k e he =>
    refine .inl ?_
    rw [World.course_eq, World.events_log w he, World.course_eq]
  | pinned w k h base table => exact .inr ⟨_, rfl, nofun⟩
  | rollBack w k h base table cause => exact .inr ⟨_, rfl, nofun⟩
  | underflow w k h none => exact .inr ⟨_, rfl, nofun⟩
  | detach w k h use map cause found unused =>
    refine .inr ⟨.unpinned use.region.handle use.region.base use.region.table cause, ?_, nofun⟩
    rw [World.course_eq, World.unpinRegion_events, World.course_eq]
    rfl
  | resume w k s =>
    rw [World.course_eq, World.resume_events, World.course_eq]
    cases hr : s.rest.region? with
    | none =>
      rw [Rest.unpinned?_of_none hr]
      exact .inl rfl
    | some r =>
      obtain ⟨cause, he⟩ := Rest.unpinned?_of_some hr
      rw [he]
      exact .inr ⟨_, rfl, nofun⟩
  | completed w k id => exact .inr ⟨_, rfl, nofun⟩
  | release w k pins =>
    rw [World.course_eq, World.release_events, World.course_eq]
    split
    · exact .inl rfl
    · exact .inr ⟨_, rfl, nofun⟩
  | hostPinned w k address count pages => exact .inr ⟨_, rfl, nofun⟩
  | cacheHit w k file index page => exact .inr ⟨_, rfl, nofun⟩
  | blockFound w k file index block => exact .inr ⟨_, rfl, nofun⟩
  | submitted w k f => exact .inr ⟨_, rfl, fun g hg => congrArg some (Event.submitted.inj hg)⟩
  | land w k token f flights found => exact .inr ⟨_, rfl, nofun⟩
  | _ => exact .inl rfl

/-- What holds of the course at every moment has held of it at every moment before. -/
theorem Move.always {P : List Event → Prop} (h : Move p stray m m') (hnow : P m'.world.course)
    (hpast : ∀ older, older <:+ m.world.course → P older) :
    ∀ older, older <:+ m'.world.course → P older := by
  intro older hsuffix
  rcases h.course with hc | ⟨e, hc, -⟩
  · exact hpast older (hc ▸ hsuffix)
  · rw [hc, List.suffix_cons_iff] at hsuffix
    rcases hsuffix with he | hsuffix
    · rw [he, ← hc]
      exact hnow
    · exact hpast older hsuffix

namespace Flight

variable {f : Flight} {pageSize : Nat} {history : List Event}

theorem pending_filter : f.Pending (history.filter Event.bears) ↔ f.Pending history := by
  simp [Pending, List.mem_filter, Event.bears, Event.isNotable]

theorem backed_filter :
    f.Backed pageSize (history.filter Event.bears) ↔ f.Backed pageSize history := by
  have hobtains : (history.filter Event.bears).flatMap Event.obtains =
      history.flatMap Event.obtains :=
    Event.flatMap_filter (fun e he => by cases e <;> first | rfl | cases he) _
  have hreturns : (history.filter Event.bears).flatMap Event.returns =
      history.flatMap Event.returns :=
    Event.flatMap_filter (fun e he => by cases e <;> first | rfl | cases he) _
  have hmem {e : Event} (he : e.bears) : e ∈ history.filter Event.bears ↔ e ∈ history := by
    rw [List.mem_filter, and_iff_left he]
  unfold Backed
  refine and_congr (not_congr (hmem rfl)) (exists_congr fun r => exists_congr fun pages =>
    and_congr_right fun _ => and_congr_right fun _ => ⟨fun h => ⟨?_, ?_, ?_⟩, fun h => ⟨?_, ?_, ?_⟩⟩)
  · exact (hmem rfl).1 h.made
  · exact fun base table cause he => h.pinned base table cause ((hmem rfl).2 he)
  · rw [← hobtains, ← hreturns]; exact h.held
  · exact (hmem rfl).2 h.made
  · exact fun base table cause he => h.pinned base table cause ((hmem rfl).1 he)
  · rw [hobtains, hreturns]; exact h.held

end Flight

/-- Submissions have been backed as long as they were in flight. -/
def Moment.AlwaysBacked (m : Moment ε) : Prop :=
  ∀ older, older <:+ m.world.course → ∀ f : Flight, f.Pending older →
    f.Backed m.world.core.config.hostPageSize older

theorem Move.alwaysBacked (h : Move p False m m') (hi : m.Steady) (hpast : m.AlwaysBacked) :
    m'.AlwaysBacked := by
  refine h.always (P := fun older => ∀ f : Flight, f.Pending older →
    f.Backed m'.world.core.config.hostPageSize older) (fun f hf => ?_) ?_
  · exact Flight.backed_filter.2 ((h.steady hi).backed (Flight.pending_filter.1 hf))
  · rw [h.config]
    exact hpast

/-- **No submission in flight loses its memory.** Let only the library itself clean tasks up, and
let anything else happen in any order. At any moment, also in the middle of a call:

* A submission that a channel has taken and not ended is in flight.
* The task of a submission in flight is registered, with a reference to the region that it writes
  to, which is still pinned, and with references to the pages that it reads from, which have not
  been given back.
* The same is on record for any moment before. -/
theorem Reach.copies_keep_memory {s : System ε} (hp : p.CleansNothing)
    (h : Reach p (fun c => ¬c.isCleanup) s) (hm : Moves p False s.moment m) :
    (∀ f : Flight, f.Pending m.world.ambient.history → f ∈ m.world.core.flights.flights) ∧
    (∀ f ∈ m.world.core.flights.flights, ∃ task use,
      m.world.core.tasks.table.find? f.task = some task ∧
      m.world.core.mappings.use? task.holds.region.handle = some use ∧
      use.region = task.holds.region ∧ 0 < use.refs ∧
      f.request.InPage task.holds.region ∧
      f.extent.ReadsFrom m.world.core.config.hostPageSize task.pages ∧
      task.holds.region.Intact task.pages m.world.ambient.history) ∧
    ∀ older, older <:+ m.world.ambient.history → ∀ f : Flight, f.Pending older →
      f.Backed m.world.core.config.hostPageSize older := by
  have hmove (m m' : Moment ε) (hm : Move p False m m') :
      m.Steady ∧ m.AlwaysBacked → m'.Steady ∧ m'.AlwaysBacked :=
    fun ⟨hi, hpast⟩ => ⟨hm.steady hi, hm.alwaysBacked hi hpast⟩
  have hfresh (placement : Placement) (config : Config) (x : ε) :
      Moment.Steady ⟨.fresh placement config x, {}⟩ ∧
        Moment.AlwaysBacked ⟨.fresh placement config x, {}⟩ := by
    refine ⟨Moment.steady_fresh placement config x, fun older hsuffix f hf => ?_⟩
    obtain rfl : older = [] := List.suffix_nil.1 hsuffix
    cases hf.1
  obtain ⟨hi, hpast⟩ := Moves.keeps hmove hm
    (h.invariant (.inr hp) (fun c hc hclean => hc hclean) hfresh hmove)
  refine ⟨fun f hf => hi.mem_flights hf, fun f hf => ?_, fun older hsuffix f hf => ?_⟩
  · obtain ⟨task, ht, hin, hreads⟩ := hi.covered.flights f hf
    obtain ⟨use, hu, hregion, hpos, hintact⟩ := hi.intact ht
    exact ⟨task, use, ht, hu, hregion, hpos, hin, hreads, hintact⟩
  · exact Flight.backed_filter.1 (hpast _ (hsuffix.filter _) f (Flight.pending_filter.2 hf))

/-- The bench without the hooks that clean tasks up. -/
def Bench.hookless : Platform Bench :=
  { platform with
    pinHost := fun address count b =>
      let (grant, b) := platform.pinHost address count b
      ({ grant with cleanups := [] }, b)
    submit := fun token channel request b =>
      let (answer, b) := platform.submit token channel request b
      ({ answer with cleanups := [] }, b) }

/-- A bench with one region and a copy to it, which its channel has taken and not ended. -/
def Bench.copying : System Bench :=
  ((System.mk (.fresh {} {} { memory := { ending := .manual } }) []).perform hookless
    (.map ⟨1⟩ ⟨0x10000⟩ 0x10000)).perform hookless
      (.copyAsync ⟨⟨1⟩, none, 0, [.host 0x5000 0x1000]⟩)

theorem Bench.cleansNothing_hookless : hookless.CleansNothing :=
  ⟨fun _ _ _ => rfl, fun _ _ _ _ => rfl⟩

theorem Bench.reach_copying : Reach hookless (fun c => ¬c.isCleanup) copying :=
  .call (.call (@Reach.start _ _ _ {} {} { memory := { ending := .manual } } _ rfl) _ nofun) _ nofun

/-- What is in flight keeps its memory when the region is torn down. -/
theorem Reach.copies_keep_memory_draining :
    let f : Flight := ⟨⟨0⟩, ⟨1⟩, .memory, ⟨0x800000005000, ⟨0x4000000000⟩, 0x1000⟩⟩
    let s := Bench.copying.perform Bench.hookless (.teardown ⟨1⟩ .unmap)
    Bench.hookless.CleansNothing ∧ Reach Bench.hookless (fun c => ¬c.isCleanup) Bench.copying ∧
      f.Pending s.world.ambient.history ∧ f ∈ s.world.core.flights.flights ∧
      f.Backed s.world.core.config.hostPageSize s.world.ambient.history := by
  intro f s
  have hp : Bench.hookless.CleansNothing := ⟨fun _ _ _ => rfl, fun _ _ _ _ => rfl⟩
  have h : Reach Bench.hookless (fun c => ¬c.isCleanup) Bench.copying :=
    .call (.call (@start _ _ _ {} {} { memory := { ending := .manual } } _ rfl) _ nofun) _ nofun
  have hm : Moves Bench.hookless False Bench.copying.moment s.moment :=
    h.moves (.inr hp) (fun c hc hclean => hc hclean) nofun
  have hf : f.Pending s.world.ambient.history := ⟨by decide +kernel, by decide +kernel⟩
  obtain ⟨hflights, -, hbacked⟩ := copies_keep_memory hp h hm
  exact ⟨hp, h, hf, hflights f hf, hbacked _ (List.suffix_refl _) f hf⟩

end PeerDma
