import PeerDma.World.Regions

/-!
# Tasks in flight

Releasing what tasks hold, and counting their submissions.

* `cleanup` takes a task out of the table, gives back what it holds and wakes who waits for it.
* `finish` counts the end of a submission or a launch; the last end cleans the task up.
* `land` ends a submission in flight by its token.
* `submit` hands a run to its channel.
* `wait` waits for a task.
-/

namespace PeerDma

namespace World

variable {ε : Type} (p : Platform ε)

/-- Gives sets of page references back. -/
def releaseAll (pins : List PinSet) (w : World ε) : World ε :=
  { w with ambient := w.ambient.releaseAll p pins }

/-- Takes a task out of the table, gives back what it holds and wakes who waits for it. -/
def cleanup (id : TaskId) (w : World ε) : Except Error Unit × World ε :=
  match w.core.tasks.remove? id with
  | none => (.error .notFound, w.log (.unknownTask id))
  | some (task, tasks) =>
    let w := w.setTasks tasks
    let w := w.put p task.holds.region.handle
    let w := w.releaseAll p task.holds.pins
    let w := w.wake? p task.slot.occupant
    (.ok (), w.log (.completed id))

/-- Cleans tasks up, whatever comes of it. -/
def cleanupAll (ids : List TaskId) (w : World ε) : World ε :=
  ids.foldl (fun w id => (w.cleanup p id).2) w

/-- Counts the end of a submission or launch of a task; the last end cleans the task up. -/
def finish (id : TaskId) (w : World ε) : World ε :=
  let (last, tasks) := w.core.tasks.finish id
  let w := w.setTasks tasks
  if last then (w.cleanup p id).2 else w

/-- Ends a submission in flight, once. -/
def land (token : Token) (w : World ε) : World ε :=
  match w.core.flights.land? token with
  | none => w
  | some (flight, flights) => ((w.setFlights flights).note (.landed flight)).finish p flight.task

/-- Ends submissions in flight. -/
def landAll (tokens : List Token) (w : World ε) : World ε :=
  tokens.foldl (fun w token => w.land p token) w

/-- Hands a run of a task to its channel. -/
def submit (id : TaskId) (run : Run) (w : World ε) : Except Error Unit × World ε :=
  let w := w.log (.submitting id run)
  let w := w.setTasks (w.core.tasks.begin id)
  let request : Request := ⟨run.source, run.target, run.length⟩
  let (token, flights) := w.core.flights.start id run.channel request
  let w := w.setFlights flights
  let (answer, outside) := p.submit token run.channel request w.ambient.outside
  let w := { w with ambient := { w.ambient with outside } }
  let w := w.cleanupAll p answer.cleanups
  match answer.verdict with
  | .ok () =>
    let w := w.note (.submitted ⟨token, id, run.channel, request⟩)
    (.ok (), w.landAll p answer.ended)
  | .error e => (.error e, w.landAll p answer.ended)

/-- Parks a call until a task is cleaned up; a task that is not registered has been already. -/
def await (id : TaskId) (rest : Rest) (w : World ε) : Outcome (Except Error Unit) × World ε :=
  let (waiter, parking) := w.core.parking.fresh
  match w.core.tasks.install? id waiter with
  | none => (.returned (.error .notFound), w)
  | some (displaced, tasks) =>
    (.parked waiter, (w.setTasks tasks).setParking (parking.park ⟨waiter, displaced, rest⟩))

/-- Waits for a task. -/
def wait (id : TaskId) (w : World ε) : Outcome (Except Error Unit) × World ε := w.await id .wait

end World

end PeerDma
