import PeerDma.Extent
import PeerDma.Address
import PeerDma.Identifier

/-!
# Submissions in flight

Every submission gets a token. The channel that has the token uses it up once, when the
submission ends; until then the submission is in flight.
-/

namespace PeerDma

/-- What a channel is asked to copy. -/
structure Request where
  source : Nat
  target : PhysAddr
  length : Nat
  deriving DecidableEq, Repr

/-- Stands for one submission. -/
structure Token where
  serial : Nat
  deriving DecidableEq, Repr

/-- A submission that has not ended. -/
structure Flight where
  token : Token
  task : TaskId
  channel : Channel
  request : Request
  deriving DecidableEq, Repr

/-- The submissions in flight. -/
structure Flights where
  next : Nat := 0
  /-- The last one first. -/
  flights : List Flight := []
  deriving DecidableEq, Repr

namespace Flights

/-- A new submission. -/
def start (f : Flights) (task : TaskId) (channel : Channel) (request : Request) :
    Token × Flights :=
  (⟨f.next⟩, ⟨f.next + 1, ⟨⟨f.next⟩, task, channel, request⟩ :: f.flights⟩)

/-- Uses a token up; nothing if it has been used before. -/
def land? (f : Flights) (token : Token) : Option (Flight × Flights) :=
  (f.flights.find? (·.token = token)).map fun flight =>
    (flight, { f with flights := f.flights.filter (·.token ≠ token) })

/-- The submissions of a task. -/
def ofTask (f : Flights) (id : TaskId) : List Flight := f.flights.filter (·.task = id)

end Flights

end PeerDma
