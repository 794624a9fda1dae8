import PeerDma.Command
import PeerDma.Ledger
import PeerDma.Status

/-!
# Reports

What can be observed of a step: its answer, the submissions taken, the pins handed back, the
parked calls that came back, the state of the instance, and the log.
-/

namespace PeerDma

namespace Bench

/-- What a step answers. -/
inductive Answer where
  | done
  | failed (error : Error)
  | unknownReference
  | blocked
  | truth (value : Bool)
  | count (value : Nat)
  | refs (value : Nat)
  | mapping (value : Mapping)
  | info (value : RegionInfo)
  | task (id : TaskId)
  | probes (value : List PageProbe)
  | regions (value : List RegionStatus)
  | text (value : String)
  | config (value : Config)
  | reference (value : RegionUse)
  | position (value : Nat)
  | runs (value : List Run)
  | status (code : Int) (block : Block)
  | geometry (phys dma block cache : Nat)
  | requests (value : List Request)

/-- The answer for a result. -/
def Answer.ofResult {α : Type} (f : α → Answer) : Except Error α → Answer
  | .ok value => f value
  | .error e => .failed e

/-- What a report says of an instance. -/
structure Summary where
  refs : List (Handle × Nat)
  regions : Nat
  tasks : Nat
  idle : Bool
  mappingStats : MappingStats
  taskStats : TaskStats

/-- The summary of an instance. -/
def Summary.of (c : Core) : Summary where
  refs := c.mappings.snapshot.map fun s => (s.handle, s.refs)
  regions := c.mappings.size
  tasks := c.tasks.size
  idle := c.isIdle
  mappingStats := c.mappings.stats
  taskStats := c.tasks.stats

/-- What is observed after a step. -/
structure Report where
  answer : Answer
  submitted : List Flight
  /-- Ordered by base. -/
  unpinned : List (GpuAddr × Cause)
  /-- Calls that came back, by the number of their step. -/
  woken : List (Nat × Answer)
  summary : Option Summary
  ledger : Ledger
  pendingMemory : Nat
  pendingStorage : Nat
  log : List Log.Entry

end Bench

end PeerDma
