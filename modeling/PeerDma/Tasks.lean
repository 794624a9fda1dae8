import PeerDma.Chunk
import PeerDma.File
import PeerDma.PinSet
import PeerDma.Region
import PeerDma.Sharded
import PeerDma.WaitSlot

/-!
# The tasks of an instance

A task is a copy in flight. From its admission until its cleanup it is registered and holds what
the copy needs: a reference to its region, its source file, and page references.

Beside the table stands a count per task: its submissions that have not ended, plus one for the
launch while it lasts, so that quick submissions do not end a task that is still being launched.
The count outlives the table entry if somebody cleans the task up early.
-/

namespace PeerDma

/-- What a task keeps until its cleanup. -/
structure Holds where
  /-- The destination, on which the task has a reference. -/
  region : Region
  file : Option File
  pins : List PinSet := []

/-- A copy in flight. -/
structure Task where
  id : TaskId
  chunks : List Chunk
  /-- The position of the first byte in the region. -/
  start : Nat
  /-- Bytes in all. -/
  length : Nat
  holds : Holds
  /-- Where callers wait for the task. -/
  slot : WaitSlot := {}

/-- What has happened to requests so far. -/
structure TaskStats where
  admitted : Nat := 0
  rejected : Nat := 0
  deriving DecidableEq, Repr

/-- The tasks of an instance. -/
structure Tasks where
  /-- Registered tasks. -/
  table : Sharded TaskId Task
  /-- Submissions that have not ended, the launch included. -/
  outstanding : Table TaskId Nat := .empty
  ids : Allocator := {}
  stats : TaskStats := {}

namespace Tasks

/-- No tasks yet. -/
def empty (place : TaskId → Nat) (shards : Nat) : Tasks where
  table := .empty place shards

/-- The number of registered tasks. -/
def size (t : Tasks) : Nat := t.table.size

/-- Whether no task is registered. -/
def isEmpty (t : Tasks) : Bool := t.table.isEmpty

/-- Whether a task is registered. -/
def contains (t : Tasks) (id : TaskId) : Bool := t.table.contains id

/-- How many submissions of a task have not ended, its launch included. -/
def outstandingOf (t : Tasks) (id : TaskId) : Nat := (t.outstanding.find? id).getD 0

/-- A new task id. -/
def allocate (t : Tasks) : TaskId × Tasks :=
  let (id, ids) := t.ids.allocate
  (⟨id⟩, { t with ids })

/-- Registers a task whose launch is about to begin. -/
def register (t : Tasks) (task : Task) : Tasks :=
  { t with
    table := t.table.insert task.id task
    outstanding := t.outstanding.insert task.id 1
    stats := { t.stats with admitted := t.stats.admitted + 1 } }

/-- Counts a request that is not admitted. -/
def reject (t : Tasks) : Tasks :=
  { t with stats := { t.stats with rejected := t.stats.rejected + 1 } }

/-- Counts a submission of a task. -/
def begin (t : Tasks) (id : TaskId) : Tasks :=
  { t with outstanding := t.outstanding.insert id (t.outstandingOf id + 1) }

/-- Counts the end of a submission or launch; the answer is whether it is the last one. -/
def finish (t : Tasks) (id : TaskId) : Bool × Tasks :=
  match t.outstandingOf id with
  | 0 => (false, t)
  | 1 => (true, { t with outstanding := t.outstanding.erase id })
  | n + 2 => (false, { t with outstanding := t.outstanding.insert id (n + 1) })

/-- Gives page references to a registered task; nothing if it is not registered. -/
def retain? (t : Tasks) (id : TaskId) (pins : List PinSet) : Option Tasks :=
  (t.table.find? id).map fun task =>
    { t with
      table := t.table.insert id
        { task with holds := { task.holds with pins := task.holds.pins ++ pins } } }

/-- Lets somebody wait for a registered task, and says whom that displaces; nothing if the task
is not registered. -/
def install? (t : Tasks) (id : TaskId) (w : Waiter) : Option (Option Waiter × Tasks) :=
  (t.table.find? id).map fun task =>
    let (slot, displaced) := task.slot.install w
    (displaced, { t with table := t.table.insert id { task with slot } })

/-- Takes a task out of the table. -/
def remove? (t : Tasks) (id : TaskId) : Option (Task × Tasks) :=
  (t.table.find? id).map fun task => (task, { t with table := t.table.erase id })

end Tasks

end PeerDma
