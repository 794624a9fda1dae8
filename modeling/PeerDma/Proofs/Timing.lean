import PeerDma.Proofs.Refusals

/-!
# When submissions end

A channel that takes a submission ends it when it likes: before it answers, while it takes another
one, after the launch, or by throwing the token away. The launch does not look. It goes through its
plan and counts itself among the submissions until it is through, so that the task is not cleaned up
half way.

* `Channels`, `Platform.withChannels`: channels in place of those of the surroundings.
* `World.resolve_withChannels`: sources are resolved without the channels.
* `World.feed_takeAll`, `World.copyAsync_takeAll`: what channels that take every submission are
  handed.
* `Event.SubmitsInTime`, `Move.inTime`, `Reach.inTime`: no task is over before its last submission.
* `Reach.same_submissions`: a copy is the same, whenever its submissions end.
-/

namespace PeerDma

variable {ε : Type} {p : Platform ε} {stray : Prop} {m m' : Moment ε}

/-! ## Channels -/

/-- How channels answer submissions. -/
abbrev Channels (ε : Type) := Token → Channel → Request → ε → SubmitAnswer × ε

/-- The channels take every submission. When it ends is up to them, and so is what ends with it. -/
def Channels.TakeAll (f : Channels ε) : Prop :=
  ∀ token channel request x, (f token channel request x).1.verdict = .ok ()

/-- The same surroundings with other channels. -/
def Platform.withChannels (p : Platform ε) (f : Channels ε) : Platform ε := { p with submit := f }

theorem Ambient.locate_withChannels (p : Platform ε) (f : Channels ε) (file : File) (span : Span)
    (a : Ambient ε) : a.locate (p.withChannels f) file span = a.locate p file span := rfl

theorem Ambient.locateAll_withChannels (p : Platform ε) (f : Channels ε) (pageSize : Nat)
    (file : File) (offset length : Nat) (pins : PinSet) (a : Ambient ε) :
    a.locateAll (p.withChannels f) pageSize file offset length pins =
      a.locateAll p pageSize file offset length pins := by
  fun_induction Ambient.locateAll p pageSize file offset length pins a with
  | case1 offset length pins a h => rw [locateAll, dif_pos h]
  | case2 offset length pins a h span hpos e a' hlocate =>
    rw [locateAll, dif_neg h]
    dsimp only
    rw [locate_withChannels, hlocate]
    rfl
  | case3 offset length pins a h span hpos extent page a' hlocate e a'' hrest ih =>
    rw [locateAll, dif_neg h]
    dsimp only
    rw [locate_withChannels, hlocate]
    dsimp only
    rw [ih, hrest]
  | case4 offset length pins a h span hpos extent page a' hlocate extents pins' a'' hrest ih =>
    rw [locateAll, dif_neg h]
    dsimp only
    rw [locate_withChannels, hlocate]
    dsimp only
    rw [ih, hrest]

namespace World

/-- Sources are resolved without the channels. -/
theorem resolve_withChannels (p : Platform ε) (f : Channels ε) (file : Option File)
    (chunks : List Chunk) (w : World ε) :
    w.resolve (p.withChannels f) file chunks = w.resolve p file chunks := by
  induction chunks generalizing w with
  | nil => rfl
  | cons chunk rest ih =>
    have hchunk : w.resolveChunk (p.withChannels f) file chunk = w.resolveChunk p file chunk := by
      cases chunk with
      | host address length => rfl
      | file offset length =>
        unfold resolveChunk liftAmbient Ambient.resolveFile
        simp only [Ambient.locateAll_withChannels]
    rw [resolve, resolve, hchunk]
    simp only [ih]

theorem prepare_withChannels (p : Platform ε) (f : Channels ε) (order : CopyOrder) (w : World ε) :
    w.prepare (p.withChannels f) order = w.prepare p order := rfl

end World

/-! ## What channels are handed -/

namespace Chunk

variable {pageSize : Nat} {file : Option File} {events : List Event}

theorem Located.not_submitted {c : Chunk} {b : Backing} (h : Located pageSize file c b events)
    (f : Flight) : .submitted f ∉ events := by
  cases h with
  | host enough => simp
  | file source exact =>
    intro hmem
    obtain ⟨⟨place, index⟩, -, hanswer⟩ := List.mem_map.1 hmem
    cases place <;> cases hanswer

/-- Looking sources up submits nothing. -/
theorem LocatedAll.not_submitted {chunks : List Chunk} {backings : List Backing}
    (h : LocatedAll pageSize file chunks backings events) (f : Flight) :
    .submitted f ∉ events := by
  induction h with
  | nil => exact List.not_mem_nil
  | cons first rest ih => exact List.not_mem_append (first.not_submitted f) ih

end Chunk

/-- The submissions of runs for a task, with tokens from a number on. -/
def Run.flights (id : TaskId) : List Run → Nat → List Flight
  | [], _ => []
  | run :: rest, next => ⟨⟨next⟩, id, run.channel, run.request⟩ :: flights id rest (next + 1)

namespace World

variable {f : Channels ε}

/-- Channels that take every submission are handed all runs, in order, whatever ends meanwhile. -/
theorem feed_takeAll (hf : f.TakeAll) (id : TaskId) (runs : List Run) (w : World ε) :
    (Sink.feed (fun run w => w.submit (p.withChannels f) id run) runs w).1 = .ok () ∧
      (Sink.feed (fun run w => w.submit (p.withChannels f) id run) runs w).2.transfers =
        w.transfers ++ (Run.flights id runs w.core.flights.next).map .submitted := by
  induction runs generalizing w with
  | nil => exact ⟨rfl, (List.append_nil _).symm⟩
  | cons run rest ih =>
    have hanswer : (w.submit (p.withChannels f) id run).1 = .ok () := by
      have hverdict : (w.submitAnswer (p.withChannels f) run).1.verdict = .ok () := hf ..
      rw [submit_eq, hverdict]
    have hnext := congrArg Flights.next (submit_flights (p.withChannels f) id run w)
    rw [Sink.feed]
    rcases hs : w.submit (p.withChannels f) id run with ⟨e | _, w'⟩ <;> rw [hs] at hanswer hnext
    · cases hanswer
    · obtain ⟨hrest, htransfers⟩ := ih w'
      refine ⟨hrest, htransfers.trans ?_⟩
      rw [(submit_ok _ hs).2, show w'.core.flights.next = _ from hnext, List.append_assoc]
      rfl

/-- Before its first submission a request does nothing but look its sources up. -/
theorem lookups_of_resolve {order : CopyOrder} {task : Task} {extents : List Extent}
    {pins : List PinSet} {w w₁ w₂ : World ε} (hps : Word.isPowerOfTwo w.core.config.hostPageSize)
    (hprepare : w.prepare p order = (.ok task, w₁))
    (hresolve : (w₁.enrolled task).resolve p task.holds.file task.chunks =
      (.ok (extents, pins), w₂)) :
    ∃ lookups, (∀ f, .submitted f ∉ lookups) ∧ w₂.transfers = w.transfers ++ lookups := by
  obtain ⟨hquiet, -⟩ := prepare_ok p hprepare
  obtain ⟨hranges, hps'⟩ := resolvable hprepare hps
  obtain ⟨backings, lookups, hall, -, -, -, htransfers⟩ := resolve_ok p hranges hps' hresolve
  refine ⟨lookups, hall.not_submitted, htransfers.trans ?_⟩
  rw [show (w₁.enrolled task).transfers = w.transfers from hquiet.transfers]

/-- A request whose sources are resolved, and have a plan, succeeds with channels that take every
submission. -/
theorem copyAsync_takeAll {order : CopyOrder} {task : Task} {extents : List Extent}
    {pins : List PinSet} {runs : List Run} {w w₁ w₂ : World ε} (hf : f.TakeAll)
    (hprepare : w.prepare p order = (.ok task, w₁))
    (hresolve : (w₁.enrolled task).resolve p task.holds.file task.chunks =
      (.ok (extents, pins), w₂))
    (hplan : planRuns task.holds.region.layout task.start extents = .ok runs) :
    (w.copyAsync (p.withChannels f) order).1 = .ok task.id ∧
      (w.copyAsync (p.withChannels f) order).2.transfers =
        w₂.transfers ++ (Run.flights task.id runs w.core.flights.next).map .submitted := by
  have hbefore := flights_supplied hprepare hresolve
  rw [← prepare_withChannels p f] at hprepare
  rw [← resolve_withChannels p f] at hresolve
  have hsupply := (Quiet.retain p task.id pins w₂).trans
    (.log _ (.resolved task.id extents.length task.length))
  rw [copyAsync_of_prepare hprepare, launch_of_resolve (find?_enrolled task w₁) hresolve,
    show w₂.supplied (p.withChannels f) task extents pins = w₂.supplied p task extents pins from rfl]
  obtain ⟨hanswer, htransfers⟩ :=
    feed_takeAll (p := p) hf task.id runs (w₂.supplied p task extents pins)
  unfold submitAll
  dsimp only
  rw [drive_of_planRuns _ hplan]
  generalize Sink.feed (fun run (w : World ε) => w.submit (p.withChannels f) task.id run) runs
    (w₂.supplied p task extents pins) = fed at hanswer htransfers ⊢
  obtain ⟨answer, w₃⟩ := fed
  obtain rfl : answer = .ok () := hanswer
  refine ⟨rfl, (Quiet.finish _ task.id w₃).transfers.trans (htransfers.trans ?_)⟩
  rw [hbefore, show (w₂.supplied p task extents pins).transfers = w₂.transfers from
    hsupply.transfers]

end World

/-! ## No task is over before its last submission -/

/-- By a history, no submission has been taken after its task was over. -/
def Event.SubmitsInTime (history : List Event) : Prop :=
  history.Pairwise fun newer older =>
    ∀ f, newer = .submitted f → older ≠ .logged (.completed f.task)

namespace Event.SubmitsInTime

variable {history : List Event}

theorem filter : SubmitsInTime (history.filter Event.bears) ↔ SubmitsInTime history := by
  unfold SubmitsInTime
  rw [List.pairwise_filter]
  constructor <;> intro h
  · refine h.imp fun {newer older} hr f hf hdone => ?_
    subst hf hdone
    exact hr rfl rfl f rfl rfl
  · exact h.imp fun hr _ _ => hr

/-- What is older than a submission does not say that its task is over. -/
theorem not_mem (h : SubmitsInTime history) {newer older : List Event} {f : Flight}
    (hsplit : history = newer ++ .submitted f :: older) :
    .logged (.completed f.task) ∉ older := by
  subst hsplit
  exact fun hmem => (List.pairwise_cons.1 (List.pairwise_append.1 h).2.1).1 _ hmem f rfl rfl

end Event.SubmitsInTime

/-- Submissions are offered as long as their task is registered, and so are in time. -/
theorem Move.inTime (h : Move p False m m') (hi : m.Steady)
    (ht : Event.SubmitsInTime m.world.course) : Event.SubmitsInTime m'.world.course := by
  rcases h.course with hc | ⟨e, hc, hoffered⟩
  · rw [hc]
    exact ht
  · rw [hc]
    refine List.pairwise_cons.2 ⟨fun older hmem f hf hdone => ?_, ht⟩
    subst hdone
    obtain ⟨task, htask, -⟩ := hi.covered.flights f (hi.tracked.offered f (hoffered f hf))
    exact hi.not_completed htask (List.mem_of_mem_filter hmem)

/-- At any moment of a request, whatever the channels, what is in flight has its memory, and all
submissions have been in time. -/
theorem Reach.inTime {q : Platform ε} {s : System ε} (hs : False ∨ p.CleansNothing)
    (h : Reach p (fun c => c.isCleanup → False) s) (hm : Moves q False s.moment m) :
    m.Steady ∧ Event.SubmitsInTime m.world.course := by
  have hmove {q : Platform ε} (m m' : Moment ε) (hm : Move q False m m') :
      m.Steady ∧ Event.SubmitsInTime m.world.course →
        m'.Steady ∧ Event.SubmitsInTime m'.world.course :=
    fun ⟨hi, ht⟩ => ⟨hm.steady hi, hm.inTime hi ht⟩
  have hfresh (placement : Placement) (config : Config) (x : ε) :
      Moment.Steady ⟨.fresh placement config x, {}⟩ ∧
        Event.SubmitsInTime (World.fresh placement config x).course :=
    ⟨Moment.steady_fresh placement config x, List.Pairwise.nil⟩
  exact Moves.keeps hmove hm (h.invariant hs (fun _ hc => hc) hfresh hmove)

/-! ## The request -/

namespace Reach

variable {s : System ε} {order : CopyOrder} {task : Task} {extents : List Extent}
  {pins : List PinSet} {w₁ w₂ : World ε}

/-- **When submissions end does not matter to a copy.** After any run, take a request that is
admitted and whose sources are resolved.

* Once the sources have been looked up, channels that take every submission are handed the runs of
  its plan, in order and under the next tokens, and nothing else, and the request succeeds. This is
  so whenever the channels end these submissions or others.
* So two such kinds of channels are handed the same submissions, and the answers are the same.
* If only the library itself cleans tasks up, then at any moment of the request and after it, a task
  that is being launched is registered and not over, and no submission has been taken after its task
  was over. -/
theorem same_submissions (hs : stray ∨ p.CleansNothing)
    (h : Reach p (fun c => c.isCleanup → stray) s)
    (hprepare : s.world.prepare p order = (.ok task, w₁))
    (hresolve : (w₁.enrolled task).resolve p task.holds.file task.chunks =
      (.ok (extents, pins), w₂)) :
    ∃ runs lookups, planRuns task.holds.region.layout task.start extents = .ok runs ∧
      (∀ f, .submitted f ∉ lookups) ∧
      (∀ f : Channels ε, f.TakeAll →
        (s.world.copyAsync (p.withChannels f) order).1 = .ok task.id ∧
        (s.world.copyAsync (p.withChannels f) order).2.transfers = s.world.transfers ++ lookups ++
          (Run.flights task.id runs s.world.core.flights.next).map .submitted) ∧
      (∀ f g : Channels ε, f.TakeAll → g.TakeAll →
        (s.world.copyAsync (p.withChannels f) order).1 =
          (s.world.copyAsync (p.withChannels g) order).1 ∧
        (s.world.copyAsync (p.withChannels f) order).2.transfers =
          (s.world.copyAsync (p.withChannels g) order).2.transfers) ∧
      (¬stray → ∀ f : Channels ε, (p.withChannels f).CleansNothing →
        ∀ m, Moves (p.withChannels f) False s.moment m →
          (∀ l, m.hand.launch = some l → m.Registered l.task ∧
            .logged (.completed l.task) ∉ m.world.ambient.history) ∧
          ∀ newer g older, m.world.ambient.history = newer ++ .submitted g :: older →
            .logged (.completed g.task) ∉ older) := by
  have hps : Word.isPowerOfTwo s.world.core.config.hostPageSize :=
    h.isPowerOfTwo hs fun _ hc => hc
  obtain ⟨runs, hplan⟩ := World.planRuns_of_resolve hps h.covered hprepare hresolve
  obtain ⟨lookups, hlookups, htransfers⟩ := World.lookups_of_resolve hps hprepare hresolve
  have hone (f : Channels ε) (hf : f.TakeAll) :=
    World.copyAsync_takeAll hf hprepare hresolve hplan
  rw [htransfers] at hone
  refine ⟨runs, lookups, hplan, hlookups, hone, fun f g hf hg => ?_, fun hn f hclean m hm => ?_⟩
  · obtain ⟨hf₁, hf₂⟩ := hone f hf
    obtain ⟨hg₁, hg₂⟩ := hone g hg
    exact ⟨hf₁.trans hg₁.symm, hf₂.trans hg₂.symm⟩
  · obtain rfl : stray = False := eq_false hn
    obtain ⟨hi, ht⟩ := h.inTime hs hm
    refine ⟨fun l hl => ?_, fun newer g older => (Event.SubmitsInTime.filter.1 ht).not_mem⟩
    obtain ⟨v, hv, -⟩ := hi.covered.launch l hl
    exact ⟨hv.trans_ne nofun, hi.not_completed hv⟩

end Reach

/-- Channels that take every submission and leave it in flight. -/
def Bench.later : Channels Bench := fun _ _ _ b => ({ verdict := .ok () }, b)

/-- Channels that end every submission before they answer. -/
def Bench.atOnce : Channels Bench := fun token _ _ b => ({ verdict := .ok (), ended := [token] }, b)

/-- A bench with one region. -/
def Bench.mapped : System Bench :=
  (System.mk (.fresh {} {} {}) []).perform hookless (.map ⟨1⟩ ⟨0x10000⟩ 0x10000)

/-- Two runs are submitted, whether they stay in flight or the copy is over when the request
returns. -/
theorem Reach.same_submissions_atOnce :
    let order : CopyOrder := ⟨⟨1⟩, none, 0, [.host 0x5000 0x1000, .host 0x9000 0x1000]⟩
    let slow := Bench.mapped.world.copyAsync (Bench.hookless.withChannels Bench.later) order
    let quick := Bench.mapped.world.copyAsync (Bench.hookless.withChannels Bench.atOnce) order
    Bench.hookless.CleansNothing ∧
      Reach Bench.hookless (fun c => c.isCleanup → False) Bench.mapped ∧
      Bench.later.TakeAll ∧ Bench.atOnce.TakeAll ∧
      (∃ task extents pins w₁ w₂,
        Bench.mapped.world.prepare Bench.hookless order = (.ok task, w₁) ∧
        (w₁.enrolled task).resolve Bench.hookless task.holds.file task.chunks =
          (.ok (extents, pins), w₂)) ∧
      slow.1 = quick.1 ∧ slow.2.transfers = quick.2.transfers ∧
      slow.2.core.flights.flights.map Flight.token = [⟨1⟩, ⟨0⟩] ∧
      quick.2.core.flights.flights = [] ∧
      .logged (.completed ⟨1⟩) ∈ quick.2.ambient.history ∧
      ∀ newer g older, quick.2.ambient.history = newer ++ .submitted g :: older →
        .logged (.completed g.task) ∉ older := by
  intro order slow quick
  have hp := Bench.cleansNothing_hookless
  have h : Reach Bench.hookless (fun c => c.isCleanup → False) Bench.mapped :=
    .call (@start _ _ _ {} {} {} _ rfl) _ nofun
  have hlater : Bench.later.TakeAll := fun _ _ _ _ => rfl
  have hatOnce : Bench.atOnce.TakeAll := fun _ _ _ _ => rfl
  have hresolved : (match Bench.mapped.world.prepare Bench.hookless order with
      | (.ok task, w₁) =>
        ((w₁.enrolled task).resolve Bench.hookless task.holds.file task.chunks).1.isOk
      | _ => false) = true := by decide +kernel
  rcases hprepare : Bench.mapped.world.prepare Bench.hookless order with ⟨e | task, w₁⟩ <;>
    rw [hprepare] at hresolved
  · cases hresolved
  dsimp only at hresolved
  rcases hresolve : (w₁.enrolled task).resolve Bench.hookless task.holds.file task.chunks with
    ⟨e | ⟨extents, pins⟩, w₂⟩ <;> rw [hresolve] at hresolved
  · cases hresolved
  obtain ⟨runs, lookups, -, -, -, hsame, hlib⟩ := same_submissions (.inr hp) h hprepare hresolve
  obtain ⟨hanswer, htransfers⟩ := hsame _ _ hlater hatOnce
  have hclean : (Bench.hookless.withChannels Bench.atOnce).CleansNothing :=
    ⟨fun _ _ _ => rfl, fun _ _ _ _ => rfl⟩
  have hm : Moves (Bench.hookless.withChannels Bench.atOnce) False Bench.mapped.moment
      (Bench.mapped.perform (Bench.hookless.withChannels Bench.atOnce) (.copyAsync order)).moment :=
    System.perform_moves (.inr hclean) nofun (h.isPowerOfTwo (.inr hp) fun _ hc => hc)
  have hintime := (hlib not_false _ hclean _ hm).2
  have hworld (s : System Bench) (q : Platform Bench) :
      (s.perform q (.copyAsync order)).moment.world = (s.world.copyAsync q order).2 := rfl
  have hquick : Bench.mapped.world.copyAsync (Bench.hookless.withChannels Bench.atOnce) order =
      quick := rfl
  rw [hworld, hquick] at hintime
  exact ⟨hp, h, hlater, hatOnce, ⟨task, extents, pins, w₁, w₂, rfl, hresolve⟩, hanswer, htransfers,
    by decide +kernel, by decide +kernel, by decide +kernel, hintime⟩

end PeerDma
