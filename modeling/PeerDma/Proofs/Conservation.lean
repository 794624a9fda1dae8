import PeerDma.Proofs.InFlight

/-!
# Page references are conserved

Page references come from pins of host memory and from the page cache. They pass through the hands
of a call into a task, and go back when the task is cleaned up; whatever goes wrong on the way, the
call gives back what it has by then. So, between calls, what has been obtained is what has been
given back and what registered tasks hold.

* `Event.PagesReturned`: by a history, no reference has been given back that was not there.
* `Move.conserved`: page references are accounted for at every moment.
* `Reach.pages_conserved`: where the page references are, after any run.
-/

namespace PeerDma

variable {ε : Type} {p : Platform ε} {stray : Prop} {m m' : Moment ε}

/-! ## Histories -/

/-- By a history, page references have been obtained before they have been given back. -/
def Event.PagesReturned (history : List Event) : Prop :=
  (↑(history.flatMap Event.returns) : Multiset HostPage) ≤ ↑(history.flatMap Event.obtains)

namespace Event

variable {history : List Event}

theorem obtains_filter : (history.filter bears).flatMap obtains = history.flatMap obtains :=
  flatMap_filter (fun e he => by cases e <;> first | rfl | cases he) _

theorem returns_filter : (history.filter bears).flatMap returns = history.flatMap returns :=
  flatMap_filter (fun e he => by cases e <;> first | rfl | cases he) _

theorem pagesReturned_filter : PagesReturned (history.filter bears) ↔ PagesReturned history := by
  unfold PagesReturned
  rw [obtains_filter, returns_filter]

end Event

/-! ## Page references -/

/-- Page references are accounted for, now and at every moment before. -/
structure Moment.Conserved (m : Moment ε) : Prop where
  accounted : m.Accounted
  balanced : m.Balanced
  past : ∀ older, older <:+ m.world.course → Event.PagesReturned older

/-- What has been given back has been obtained. -/
theorem Moment.Balanced.pagesReturned (hi : m.Balanced) :
    Event.PagesReturned m.world.ambient.history := by
  unfold Event.PagesReturned
  rw [← World.record_obtains, ← World.record_returns, hi, add_assoc]
  exact Multiset.le_add_right _ _

theorem Move.conserved (h : Move p stray m m') (hi : m.Conserved) : m'.Conserved where
  accounted := h.accounted hi.accounted
  balanced := h.balanced hi.accounted.counted hi.balanced
  past := by
    have hnow := (h.balanced hi.accounted.counted hi.balanced).pagesReturned
    exact h.always (Event.pagesReturned_filter.2 hnow) hi.past

theorem Moment.conserved_fresh (placement : Placement) (config : Config) (x : ε) :
    Moment.Conserved ⟨.fresh placement config x, {}⟩ where
  accounted := Moment.accounted_fresh placement config x
  balanced := (Moment.steady_fresh placement config x).balanced
  past := by
    intro older hsuffix
    obtain rfl : older = [] := List.suffix_nil.1 hsuffix
    exact le_refl _

/-- Between calls, only registered tasks hold page references. -/
theorem Moment.Balanced.between {s : System ε} (hi : s.moment.Balanced) :
    (↑(s.world.ambient.history.flatMap Event.obtains) : Multiset HostPage) =
      ↑(s.world.ambient.history.flatMap Event.returns) + s.world.core.tasks.pages := by
  have hbalanced := hi
  unfold Moment.Balanced at hbalanced
  rw [World.record_obtains, World.record_returns] at hbalanced
  exact hbalanced.trans (add_zero _)

theorem Reach.conserved {s : System ε} (h : Reach p (fun _ => True) s) : s.moment.Conserved :=
  h.any_invariant Moment.conserved_fresh fun _ _ hm hi => hm.conserved hi

/-- **Page references are conserved.** After any run, in which tasks may be cleaned up at any time,
by callers and by the surroundings:

* The page references that have been obtained are those that have been given back and those that
  registered tasks hold.
* At no moment more have been given back than had been obtained until then.
* Whatever is called next, what the call obtains and what was held before is given back in the
  call, or held by tasks that are registered after it. -/
theorem Reach.pages_conserved {s : System ε} (h : Reach p (fun _ => True) s) :
    (↑(s.world.ambient.history.flatMap Event.obtains) : Multiset HostPage) =
        ↑(s.world.ambient.history.flatMap Event.returns) + s.world.core.tasks.pages ∧
    (∀ older, older <:+ s.world.ambient.history →
      (↑(older.flatMap Event.returns) : Multiset HostPage) ≤ ↑(older.flatMap Event.obtains)) ∧
    ∀ c, ∃ newer,
      (s.perform p c).world.ambient.history = newer ++ s.world.ambient.history ∧
        (↑(newer.flatMap Event.obtains) : Multiset HostPage) + s.world.core.tasks.pages =
          ↑(newer.flatMap Event.returns) + (s.perform p c).world.core.tasks.pages := by
  have hi := h.conserved
  have hbetween := hi.balanced.between
  refine ⟨hbetween, fun older hsuffix => ?_, fun c => ?_⟩
  · exact Event.pagesReturned_filter.1 (hi.past _ (hsuffix.filter _))
  · have hmoves : Moves p True s.moment (s.perform p c).moment :=
      h.moves (.inl trivial) (fun _ _ _ => trivial) fun _ => trivial
    obtain ⟨newer, hnewer⟩ := hmoves.history
    have hafter := (h.call c trivial).conserved.balanced.between
    refine ⟨newer, hnewer.symm, ?_⟩
    rw [show (s.perform p c).world.ambient.history = newer ++ s.world.ambient.history from
      hnewer.symm, List.flatMap_append, List.flatMap_append, ← Multiset.coe_add,
      ← Multiset.coe_add, hbetween] at hafter
    have hsum : (↑(s.world.ambient.history.flatMap Event.returns) : Multiset HostPage) +
        (↑(newer.flatMap Event.obtains) + s.world.core.tasks.pages) =
        ↑(s.world.ambient.history.flatMap Event.returns) +
          (↑(newer.flatMap Event.returns) + (s.perform p c).world.core.tasks.pages) := by
      rw [add_left_comm, hafter]
      ac_rfl
    exact add_left_cancel hsum

/-- A bench whose host memory hands out a page more than asked for, with a hook that cleans the
first task up while its pages are pinned. -/
def Bench.lavish : Bench :=
  { host := { extra := 1 }, memory := { ending := .manual }, hooks := [⟨.host, 0, ⟨1⟩⟩] }

/-- Two copies on that bench, both in flight. -/
def Bench.twoCopies : System Bench :=
  (((System.mk (.fresh {} {} lavish) []).perform platform (.map ⟨1⟩ ⟨0x10000⟩ 0x10000)).perform
    platform (.copyAsync ⟨⟨1⟩, none, 0, [.host 0x5000 0x1000]⟩)).perform
      platform (.copyAsync ⟨⟨1⟩, none, 0, [.host 0x9000 0x1000]⟩)

/-- The pages of the first copy have been given back, those of the second one are held. -/
theorem Reach.pages_conserved_hooked :
    Reach Bench.platform (fun _ => True) Bench.twoCopies ∧
      Bench.twoCopies.world.ambient.history.flatMap Event.obtains =
        [⟨⟨0x800000009000⟩⟩, ⟨⟨0x80000000a000⟩⟩, ⟨⟨0x800000005000⟩⟩, ⟨⟨0x800000006000⟩⟩] ∧
      Bench.twoCopies.world.ambient.history.flatMap Event.returns =
        [⟨⟨0x800000005000⟩⟩, ⟨⟨0x800000006000⟩⟩] ∧
      Bench.twoCopies.world.core.tasks.pages =
        {⟨⟨0x800000009000⟩⟩, ⟨⟨0x80000000a000⟩⟩} := by
  have h : Reach Bench.platform (fun _ => True) Bench.twoCopies :=
    .call (.call (.call (@Reach.start _ _ _ {} {} Bench.lavish _ rfl) _ trivial) _ trivial) _ trivial
  have hobtains : Bench.twoCopies.world.ambient.history.flatMap Event.obtains =
      [⟨⟨0x800000009000⟩⟩, ⟨⟨0x80000000a000⟩⟩, ⟨⟨0x800000005000⟩⟩, ⟨⟨0x800000006000⟩⟩] := by
    decide +kernel
  have hreturns : Bench.twoCopies.world.ambient.history.flatMap Event.returns =
      [⟨⟨0x800000005000⟩⟩, ⟨⟨0x800000006000⟩⟩] := by
    decide +kernel
  refine ⟨h, hobtains, hreturns, ?_⟩
  have hpages := (pages_conserved h).1
  rw [hobtains, hreturns] at hpages
  refine add_left_cancel (hpages.symm.trans ?_)
  decide

end PeerDma
