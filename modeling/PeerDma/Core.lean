import PeerDma.Config
import PeerDma.Flights
import PeerDma.Mappings
import PeerDma.Parking
import PeerDma.Tasks

/-!
# The state of an instance

An instance consists of its regions, its tasks, the submissions in flight and the calls that are
parked in it.
-/

namespace PeerDma

/-- Picks the shards of keys. Nothing that a caller sees depends on it. -/
structure Placement where
  ofHandle : Handle → Nat := Handle.id
  ofTask : TaskId → Nat := TaskId.id

/-- The state of an instance. -/
structure Core where
  config : Config
  mappings : Mappings
  tasks : Tasks
  flights : Flights := {}
  parking : Parking := {}

namespace Core

/-- An instance without regions and tasks. -/
def create (placement : Placement) (config : Config) : Core where
  config := config
  mappings := .empty placement.ofHandle config.mappingShards config.boundSize
  tasks := .empty placement.ofTask config.taskShards

/-- Whether nothing is registered. -/
def isIdle (c : Core) : Bool := c.mappings.isEmpty && c.tasks.isEmpty

end Core

end PeerDma
