import PeerDma.Probe
import PeerDma.World.Resolve

/-!
# Copy requests

A request names a region, an offset and the chunks to copy there. `copyAsync` checks it, registers a
task that holds what the copy needs, and launches it: the sources are resolved, and their runs go
to the channels until one is refused. A request that fails before its launch leaves nothing behind.

* `copyAsync` does not wait for the copy, `copy` does.
* `checkFile` and `probe` look at a file without copying.
-/

namespace PeerDma

/-- A copy to be made. -/
structure CopyOrder where
  handle : Handle
  /-- The source file, needed if a chunk reads from it. -/
  descriptor : Option Int
  /-- Bytes past the caller's address where the first chunk goes. -/
  offset : Nat
  /-- The sources, back to back. -/
  chunks : List Chunk
  deriving DecidableEq, Repr

namespace World

variable {ε : Type} (p : Platform ε)

/-! ## Launch -/

/-- Gives page references to a task; a task that is gone cannot keep them. -/
def retain (id : TaskId) (pins : List PinSet) (w : World ε) : World ε :=
  match w.core.tasks.retain? id pins with
  | some tasks => w.setTasks tasks
  | none => w.releaseAll p pins

/-- The error for a reason to stop; a position outside the page table goes to the log. -/
def stopError (stop : Stop Error) (w : World ε) : Error × World ε :=
  (stop.error id,
    match stop with
    | .refused _ => w
    | .outside position => w.log (.outsideTable position))

/-- Hands the runs of extents to the channels, up to the first that is refused. -/
def submitAll (task : Task) (region : Region) (extents : List Extent) (w : World ε) :
    Except Error Unit × World ε :=
  let cursor : Cursor := { layout := region.layout, position := task.start }
  match cursor.drive (fun run w => w.submit p task.id run) extents w with
  | (.ok (), w) => (.ok (), w)
  | (.error stop, w) =>
    let (e, w) := w.stopError stop
    (.error e, w.log (.stopped task.id e))

/-- Resolves the sources of a registered task and submits its runs. Without sources the task is
cleaned up at once, after the references that have been taken for it are given back; otherwise its
last submission does that, or the end of the launch. -/
def launch (task : Task) (w : World ε) : Except Error Unit × World ε :=
  match w.core.tasks.table.find? task.id with
  | none => (.error .notFound, w.log (.launchedAfterCleanup task.id))
  | some registered =>
    let holds := registered.holds
    match w.resolve p holds.file task.chunks with
    | (.error stop, w) =>
      let w := (w.log (.unresolved task.id stop.error)).releaseAll p stop.pins
      (.error stop.error, (w.cleanup p task.id).2)
    | (.ok (extents, pins), w) =>
      let w := w.retain p task.id pins
      let w := w.log (.resolved task.id extents.length task.length)
      let (answer, w) := w.submitAll p task holds.region extents
      (answer, w.finish p task.id)

/-! ## Admission -/

/-- The source file of a request, if a chunk reads from it. -/
def sourceFile (order : CopyOrder) (w : World ε) : Except Error (Option File) × World ε :=
  if Chunk.needsFile order.chunks then
    match order.descriptor with
    | none => (.error .badDescriptor, w.log .noDescriptor)
    | some descriptor =>
      match w.liftAmbient (·.openChecked p w.core.config.hostPageSize descriptor) with
      | (.error e, w) => (.error e, w)
      | (.ok file, w) => (.ok (some file), w)
  else (.ok none, w)

/-- Checks a request and makes the task for it, with a reference to its region. -/
def prepare (order : CopyOrder) (w : World ε) : Except Error Task × World ε :=
  match Chunk.totalLength order.chunks with
  | .error fault => (.error .invalidArgument, w.log? fault.entry?)
  | .ok length =>
    match w.acquire order.handle with
    | (.error e, w) => (.error e, w)
    | (.ok use, w) =>
      match w.window use.region order.offset length with
      | (.error e, w) => (.error e, w.put p order.handle)
      | (.ok start, w) =>
        match w.sourceFile p order with
        | (.error e, w) => (.error e, w.put p order.handle)
        | (.ok file, w) =>
          let (id, tasks) := w.core.tasks.allocate
          (.ok { id, chunks := order.chunks, start, length, holds := { region := use.region, file } },
            w.setTasks tasks)

/-- Admits a request and launches its task. The copy may be over when this returns. -/
def copyAsync (order : CopyOrder) (w : World ε) : Except Error TaskId × World ε :=
  match w.prepare p order with
  | (.error e, w) => (.error e, w.setTasks w.core.tasks.reject)
  | (.ok task, w) =>
    let w := (w.setTasks (w.core.tasks.register task)).log (.admitted task.id)
    match w.launch p task with
    | (.error e, w) => (.error e, w)
    | (.ok (), w) => (.ok task.id, w)

/-- Admits a request and waits for its task. A task that is gone by then is no failure. -/
def copy (order : CopyOrder) (w : World ε) : Outcome (Except Error TaskId) × World ε :=
  match w.copyAsync p order with
  | (.error e, w) => (.returned (.error e), w)
  | (.ok id, w) =>
    match w.await id (.copy id) with
    | (.returned _, w) => (.returned (.ok id), w)
    | (.parked waiter, w) => (.parked waiter, w)

/-! ## Looking at files -/

/-- Whether the file behind a descriptor may be copied from. -/
def checkFile (descriptor : Int) (w : World ε) : Except Error Unit × World ε :=
  let (answer, w) := w.liftAmbient (·.openChecked p w.core.config.hostPageSize descriptor)
  (answer.map fun _ => (), w)

/-- Where the pages of a file range would be read from. -/
def probe (visit : PageProbe → Ambient ε → Ambient ε) (descriptor : Int) (offset length : Nat)
    (w : World ε) : Except Error (List PageProbe) × World ε :=
  let pageSize := w.core.config.hostPageSize
  match w.liftAmbient (·.openChecked p pageSize descriptor) with
  | (.error e, w) => (.error e, w)
  | (.ok file, w) =>
    let (probes, w) := w.liftAmbient (·.probe p visit pageSize file offset length)
    (.ok probes, w)

end World

end PeerDma
