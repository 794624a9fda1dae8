import Mathlib.Logic.Relation
import PeerDma.Proofs.Effects
import PeerDma.Proofs.Tables
import PeerDma.Proofs.Transfer

/-!
# Moves

Every call is a sequence of moves, each of which changes a single thing: a count, a table entry, an
event. What holds of every state, also in the middle of a call, is an invariant of moves.

Between two moves of a call some things are in nobody's table: a reference on its way from a caller
into a task, the page references of a task that is being cleaned up, a waiter who has been taken out
of its slot. The `Hand` has them. A `Moment` is a world with the hand of the calls at work in it.

* `Move`: the moves. Only the surroundings clean tasks up that are not due (`stray`).
* `Moves`: sequences of moves.
* `Move.history`: the history only grows.
-/

namespace PeerDma

/-! ## What calls have in hand -/

/-- A map between its beginning and its end. -/
structure MapInHand where
  handle : Handle
  /-- The pin, once there is one. -/
  pin : Option (GpuAddr × PageTable) := none

/-- A launch between the registration of its task and its end. -/
structure LaunchInHand where
  task : TaskId
  /-- Where the task copies to. -/
  region : Region
  /-- The page references given to the task, once the sources are resolved. -/
  pages : Option (List HostPage) := none

/-- What the calls at work have in hand. -/
structure Hand where
  /-- References to regions, those of callers included. -/
  refs : Multiset Handle := 0
  /-- References to host pages. -/
  pages : Multiset HostPage := 0
  /-- Waiters to be woken. -/
  wakes : List Waiter := []
  /-- Parked calls that have been woken and are to come back. -/
  roused : List Sleeper := []
  /-- Tasks whose cleanup is due. -/
  due : List TaskId := []
  /-- Tasks that have been taken out of the table and whose cleanup is not over. -/
  closing : List TaskId := []
  map : Option MapInHand := none
  launch : Option LaunchInHand := none
  /-- A submission that its channel has not answered yet. -/
  offered : Option Flight := none

/-- A world and what the calls at work in it have in hand. -/
structure Moment (ε : Type) where
  world : World ε
  hand : Hand

/-- What comes from host memory lies on the pages. -/
def Extent.ReadsFrom (pageSize : Nat) (pages : List HostPage) (e : Extent) : Prop :=
  e.channel = .memory → ∀ k < e.length, ∃ page ∈ pages,
    page.dma.raw ≤ e.source + k ∧ e.source + k < page.dma.raw + pageSize

/-- The source of a submission. -/
def Flight.extent (f : Flight) : Extent := ⟨f.channel, f.request.source, f.request.length⟩

namespace World

variable {ε : Type}

/-- Puts another state of the surroundings in place. -/
def setOutside (w : World ε) (outside : ε) : World ε :=
  { w with ambient := { w.ambient with outside } }

/-- Takes the calls under a waiter, and those displaced, out of the parked ones. -/
def unpark (waiter : Waiter) (w : World ε) : World ε :=
  w.setParking { w.core.parking with sleepers := (rouse waiter w.core.parking.sleepers).2 }

/-- Parks a call that takes a region out of the table and has to wait for its users. -/
def parkTeardown (use : RegionUse) (mappings : Mappings) (rest : Rest) (w : World ε) : World ε :=
  let (waiter, parking) := w.core.parking.fresh
  let (slot, displaced) := use.slot.install waiter
  (w.setMappings (mappings.drain { use with slot })).setParking
    (parking.park ⟨waiter, displaced, rest⟩)

/-- Ends a submission in flight, but for the cleanup that may follow. -/
def settle (flight : Flight) (flights : Flights) (w : World ε) : World ε :=
  ((w.setFlights flights).note (.landed flight)).setTasks (w.core.tasks.finish flight.task).2

end World

/-! ## Moves -/

/-- The cleanup that follows the end of a submission or of a launch, if it is the last one. -/
def Tasks.dueAfter (t : Tasks) (id : TaskId) : List TaskId := if (t.finish id).1 then [id] else []

/-- One move. -/
inductive Move {ε : Type} (p : Platform ε) (stray : Prop) : Moment ε → Moment ε → Prop where
  -- The surroundings.
  | log (w : World ε) (k : Hand) (e : Log.Entry) (plain : e.isPlain) :
      Move p stray ⟨w, k⟩ ⟨w.log e, k⟩
  | outside (w : World ε) (k : Hand) (x : ε) : Move p stray ⟨w, k⟩ ⟨w.setOutside x, k⟩
  -- A map.
  | beginMap (w : World ε) (k : Hand) :
      Move p stray ⟨w, { k with map := none }⟩
        ⟨w.setMappings w.core.mappings.begin.2,
          { k with map := some { handle := w.core.mappings.begin.1 } }⟩
  | pinned (w : World ε) (k : Hand) (h : Handle) (base : GpuAddr) (table : PageTable) :
      Move p stray ⟨w, { k with map := some { handle := h } }⟩
        ⟨w.note (.pinned h base table), { k with map := some ⟨h, some (base, table)⟩ }⟩
  | revoke (w : World ε) (k : Hand) (h : Handle) (m : Mappings)
      (found : w.core.mappings.revoke? h = some m) :
      Move p stray ⟨w, k⟩ ⟨w.setMappings m, k⟩
  | finishMap (w : World ε) (k : Hand) (h : Handle) :
      Move p stray ⟨w, k⟩ ⟨w.setMappings (w.core.mappings.finish h).2, k⟩
  | giveUp (w : World ε) (k : Hand) (h : Handle) :
      Move p stray ⟨w, { k with map := some { handle := h } }⟩ ⟨w, { k with map := none }⟩
  | rollBack (w : World ε) (k : Hand) (h : Handle) (base : GpuAddr) (table : PageTable)
      (cause : Cause) :
      Move p stray ⟨w, { k with map := some ⟨h, some (base, table)⟩ }⟩
        ⟨w.note (.unpinned h base table cause), { k with map := none }⟩
  | register (w : World ε) (k : Hand) (r : Region) :
      Move p stray ⟨w, { k with map := some ⟨r.handle, some (r.base, r.table)⟩ }⟩
        ⟨w.setMappings (w.core.mappings.register r).countMapped, { k with map := none }⟩
  | countEvicted (w : World ε) (k : Hand) :
      Move p stray ⟨w, k⟩ ⟨w.setMappings w.core.mappings.countEvicted, k⟩
  -- References to regions.
  | acquire (w : World ε) (k : Hand) (h : Handle) (use : RegionUse) (m : Mappings)
      (found : w.core.mappings.acquire? h = some (use, m)) :
      Move p stray ⟨w, k⟩ ⟨w.setMappings m, { k with refs := h ::ₘ k.refs }⟩
  | put (w : World ε) (k : Hand) (h : Handle) (m : Mappings)
      (found : w.core.mappings.put? h = some (none, m)) :
      Move p stray ⟨w, { k with refs := h ::ₘ k.refs }⟩ ⟨w.setMappings m, k⟩
  | putLast (w : World ε) (k : Hand) (h : Handle) (waiter : Waiter) (m : Mappings)
      (found : w.core.mappings.put? h = some (some waiter, m)) :
      Move p stray ⟨w, { k with refs := h ::ₘ k.refs }⟩
        ⟨(w.setMappings m).unpark waiter,
          { k with roused := (rouse waiter w.core.parking.sleepers).1 ++ k.roused }⟩
  | underflow (w : World ε) (k : Hand) (h : Handle) (none : w.core.mappings.put? h = none) :
      Move p stray ⟨w, { k with refs := h ::ₘ k.refs }⟩ ⟨w.log (.refUnderflow h), k⟩
  | detach (w : World ε) (k : Hand) (h : Handle) (use : RegionUse) (m : Mappings) (cause : Cause)
      (found : w.core.mappings.detach? h = some (use, m)) (unused : use.refs = 0) :
      Move p stray ⟨w, k⟩ ⟨(w.setMappings m).unpinRegion p use.region cause, k⟩
  | park (w : World ε) (k : Hand) (h : Handle) (use : RegionUse) (m : Mappings) (rest : Rest)
      (found : w.core.mappings.detach? h = some (use, m)) (used : use.refs ≠ 0)
      (tears : rest.region? = some use.region) :
      Move p stray ⟨w, k⟩ ⟨w.parkTeardown use m rest, k⟩
  -- Parked calls.
  | wake (w : World ε) (k : Hand) (waiter : Waiter) :
      Move p stray ⟨w, { k with wakes := waiter :: k.wakes }⟩
        ⟨w.unpark waiter,
          { k with roused := (rouse waiter w.core.parking.sleepers).1 ++ k.roused }⟩
  | resume (w : World ε) (k : Hand) (s : Sleeper) :
      Move p stray ⟨w, { k with roused := s :: k.roused }⟩ ⟨w.resume p s, k⟩
  | install (w : World ε) (k : Hand) (id : TaskId) (rest : Rest) (displaced : Option Waiter)
      (tasks : Tasks)
      (found : w.core.tasks.install? id w.core.parking.fresh.1 = some (displaced, tasks))
      (waits : rest.region? = none) :
      Move p stray ⟨w, k⟩
        ⟨(w.setTasks tasks).setParking
          (w.core.parking.fresh.2.park ⟨w.core.parking.fresh.1, displaced, rest⟩), k⟩
  -- Tasks.
  | enroll (w : World ε) (k : Hand) (h : Handle) (task : Task) (use : RegionUse)
      (new : task.id = w.core.tasks.allocate.1) (nobody : task.slot = {})
      (nothing : task.holds.pins = []) (found : w.core.mappings.table.find? h = some use)
      (same : use.region = task.holds.region) :
      Move p stray ⟨w, { k with refs := h ::ₘ k.refs, launch := none }⟩
        ⟨w.setTasks (w.core.tasks.allocate.2.register task),
          { k with launch := some { task := task.id, region := task.holds.region } }⟩
  | reject (w : World ε) (k : Hand) : Move p stray ⟨w, k⟩ ⟨w.setTasks w.core.tasks.reject, k⟩
  | stray (w : World ε) (k : Hand) (id : TaskId) (allowed : stray) :
      Move p stray ⟨w, k⟩ ⟨w, { k with due := id :: k.due }⟩
  | remove (w : World ε) (k : Hand) (id : TaskId) (task : Task) (tasks : Tasks)
      (found : w.core.tasks.remove? id = some (task, tasks)) :
      Move p stray ⟨w, { k with due := id :: k.due }⟩
        ⟨w.setTasks tasks, { k with
          refs := task.holds.region.handle ::ₘ k.refs
          pages := ↑task.pages + k.pages
          wakes := task.slot.occupant.toList ++ k.wakes
          closing := id :: k.closing }⟩
  | unknown (w : World ε) (k : Hand) (id : TaskId) (none : w.core.tasks.remove? id = none) :
      Move p stray ⟨w, { k with due := id :: k.due }⟩ ⟨w.log (.unknownTask id), k⟩
  | completed (w : World ε) (k : Hand) (id : TaskId) :
      Move p stray ⟨w, { k with closing := id :: k.closing }⟩ ⟨w.log (.completed id), k⟩
  | release (w : World ε) (k : Hand) (pins : PinSet) :
      Move p stray ⟨w, { k with pages := ↑pins.pages + k.pages }⟩ ⟨w.releaseAll p [pins], k⟩
  | retain (w : World ε) (k : Hand) (id : TaskId) (r : Region) (pins : List PinSet)
      (tasks : Tasks) (found : w.core.tasks.retain? id pins = some tasks) :
      Move p stray
        ⟨w, { k with
          launch := some { task := id, region := r }
          pages := ↑(pins.flatMap PinSet.pages) + k.pages }⟩
        ⟨w.setTasks tasks, { k with launch := some ⟨id, r, some (pins.flatMap PinSet.pages)⟩ }⟩
  | retainGone (w : World ε) (k : Hand) (id : TaskId) (r : Region) (pages : List HostPage)
      (none : w.core.tasks.table.find? id = none) :
      Move p stray ⟨w, { k with launch := some { task := id, region := r } }⟩
        ⟨w, { k with launch := some ⟨id, r, some pages⟩ }⟩
  | endLaunch (w : World ε) (k : Hand) (l : LaunchInHand) :
      Move p stray ⟨w, { k with launch := some l }⟩
        ⟨w.setTasks (w.core.tasks.finish l.task).2,
          { k with launch := none, due := w.core.tasks.dueAfter l.task ++ k.due }⟩
  | abandon (w : World ε) (k : Hand) (id : TaskId) (r : Region) :
      Move p stray ⟨w, { k with launch := some { task := id, region := r } }⟩
        ⟨w, { k with launch := none, due := id :: k.due }⟩
  -- Sources and submissions.
  | hostPinned (w : World ε) (k : Hand) (address count : Nat) (pages : List HostPage) :
      Move p stray ⟨w, k⟩
        ⟨w.note (.hostPinned address count pages), { k with pages := ↑pages + k.pages }⟩
  | cacheHit (w : World ε) (k : Hand) (file : Int) (index : Nat) (page : HostPage) :
      Move p stray ⟨w, k⟩
        ⟨w.note (.cacheHit file index page), { k with pages := page ::ₘ k.pages }⟩
  | blockFound (w : World ε) (k : Hand) (file : Int) (index block : Nat) :
      Move p stray ⟨w, k⟩ ⟨w.note (.blockFound file index block), k⟩
  | offer (w : World ε) (k : Hand) (id : TaskId) (r : Region) (pages : List HostPage) (run : Run)
      (inside : run.request.InPage r)
      (backed : run.extent.ReadsFrom w.core.config.hostPageSize pages) :
      Move p stray ⟨w, { k with launch := some ⟨id, r, some pages⟩, offered := none }⟩
        ⟨w.offer id run, { k with
          launch := some ⟨id, r, some pages⟩
          offered := some (w.nextFlight id run) }⟩
  | submitted (w : World ε) (k : Hand) (f : Flight) :
      Move p stray ⟨w, { k with offered := some f }⟩
        ⟨w.note (.submitted f), { k with offered := none }⟩
  | refused (w : World ε) (k : Hand) (f : Flight) :
      Move p stray ⟨w, { k with offered := some f }⟩ ⟨w, { k with offered := none }⟩
  | land (w : World ε) (k : Hand) (token : Token) (f : Flight) (flights : Flights)
      (found : w.core.flights.land? token = some (f, flights)) :
      Move p stray ⟨w, { k with offered := none }⟩
        ⟨w.settle f flights, { k with
          offered := none
          due := w.core.tasks.dueAfter f.task ++ k.due }⟩

/-- Any number of moves. -/
abbrev Moves {ε : Type} (p : Platform ε) (stray : Prop) : Moment ε → Moment ε → Prop :=
  Relation.ReflTransGen (Move p stray)

variable {ε : Type} {p : Platform ε} {stray : Prop} {m m' : Moment ε}

theorem Move.config (h : Move p stray m m') : m'.world.core.config = m.world.core.config := by
  cases h with
  | detach => exact (congrArg Core.config (World.unpinRegion_core p ..)).trans rfl
  | resume => exact (congrArg Core.config (World.resume_core p ..)).trans rfl
  | _ => rfl

/-- What each move keeps is kept by any number of them. -/
theorem Moves.keeps {I : Moment ε → Prop} (hI : ∀ m m', Move p stray m m' → I m → I m')
    (h : Moves p stray m m') (hm : I m) : I m' := by
  induction h with
  | refl => exact hm
  | tail _ hmove ih => exact hI _ _ hmove ih

theorem Moves.config (h : Moves p stray m m') : m'.world.core.config = m.world.core.config :=
  Moves.keeps (I := fun m' => m'.world.core.config = m.world.core.config)
    (fun _ _ hm hi => hm.config.trans hi) h rfl

/-- The history only grows. -/
theorem Move.history (h : Move p stray m m') :
    m.world.ambient.history <:+ m'.world.ambient.history := by
  have hunpin (r : Region) (cause : Cause) (w : World ε) :
      w.ambient.history <:+ (w.unpinRegion p r cause).ambient.history := by
    unfold World.unpinRegion
    dsimp only
    cases (w.ambient.unpin p r.handle r.base r.table cause).1 with
    | ok => exact ⟨[_, _], rfl⟩
    | error e => exact ⟨[_, _, _], rfl⟩
  cases h with
  | log w k e => exact List.suffix_cons ..
  | pinned w k h base table => exact List.suffix_cons ..
  | rollBack w k h base table cause => exact List.suffix_cons ..
  | underflow w k h none => exact List.suffix_cons ..
  | detach w k h use map cause found unused => exact hunpin use.region cause (w.setMappings map)
  | resume w k s =>
    dsimp only
    unfold World.resume World.unpinEvicted
    cases s.rest with
    | teardown r cause => exact (hunpin r cause w).trans (List.suffix_cons ..)
    | eviction r => exact (hunpin r .evicted w).trans ⟨[_, _], rfl⟩
    | wait => exact List.suffix_cons ..
    | copy task => exact List.suffix_cons ..
  | unknown w k id none => exact List.suffix_cons ..
  | completed w k id => exact List.suffix_cons ..
  | release w k pins =>
    show w.ambient.history <:+ (w.ambient.release p pins).history
    unfold Ambient.release
    split
    · exact List.suffix_refl _
    · exact List.suffix_cons ..
  | hostPinned w k address count pages => exact List.suffix_cons ..
  | cacheHit w k file index page => exact List.suffix_cons ..
  | blockFound w k file index block => exact List.suffix_cons ..
  | submitted w k f => exact List.suffix_cons ..
  | land w k token f flights found => exact List.suffix_cons ..
  | offer w k id r pages run inside backed => exact List.suffix_cons ..
  | _ => exact List.suffix_refl _

theorem Moves.history (h : Moves p stray m m') :
    m.world.ambient.history <:+ m'.world.ambient.history :=
  Moves.keeps (I := fun m' => m.world.ambient.history <:+ m'.world.ambient.history)
    (fun _ _ hm hi => hi.trans hm.history) h (List.suffix_refl _)

end PeerDma
