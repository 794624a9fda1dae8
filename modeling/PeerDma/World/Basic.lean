import PeerDma.Core
import PeerDma.Platform

/-!
# An instance in its surroundings

A `World` is the state of an instance with that of its surroundings. The operations of an instance
are functions on worlds. One that may have to wait answers with an `Outcome`: its value, or the
waiter under which it is parked.
-/

namespace PeerDma

/-- An instance in its surroundings. -/
structure World (ε : Type) where
  core : Core
  ambient : Ambient ε

/-- How far a call gets at once. -/
inductive Outcome (α : Type) where
  | returned (value : α)
  | parked (waiter : Waiter)
  deriving DecidableEq, Repr

/-- The outcome with its value changed. -/
def Outcome.map {α β : Type} (f : α → β) : Outcome α → Outcome β
  | returned value => returned (f value)
  | parked waiter => parked waiter

namespace World

variable {ε : Type}

/-- Adds an event. -/
def note (w : World ε) (e : Event) : World ε := { w with ambient := w.ambient.note e }

/-- Adds a line to the log. -/
def log (w : World ε) (e : Log.Entry) : World ε := { w with ambient := w.ambient.log e }

/-- Adds a line to the log, if there is one. -/
def log? (w : World ε) (e : Option Log.Entry) : World ε :=
  match e with
  | none => w
  | some e => w.log e

/-- Works on the surroundings alone. -/
def liftAmbient {α : Type} (f : Ambient ε → α × Ambient ε) (w : World ε) : α × World ε :=
  let (value, ambient) := f w.ambient
  (value, { w with ambient })

/-- Puts other regions in place. -/
def setMappings (w : World ε) (mappings : Mappings) : World ε :=
  { w with core := { w.core with mappings } }

/-- Puts other tasks in place. -/
def setTasks (w : World ε) (tasks : Tasks) : World ε :=
  { w with core := { w.core with tasks } }

/-- Puts other submissions in place. -/
def setFlights (w : World ε) (flights : Flights) : World ε :=
  { w with core := { w.core with flights } }

/-- Puts other parked calls in place. -/
def setParking (w : World ε) (parking : Parking) : World ε :=
  { w with core := { w.core with parking } }

end World

end PeerDma
