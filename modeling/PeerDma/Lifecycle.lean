import PeerDma.World.Basic

/-!
# The life of an instance

An instance starts with a checked configuration (`Ambient.start`). A process has at most one of
its own: `Process.start` creates it, `Process.stop` drops it once nothing is registered.
-/

namespace PeerDma

variable {ε : Type}

/-- A new instance, unless its configuration has a fault. -/
def Ambient.start (placement : Placement) (config : Config) (a : Ambient ε) :
    Except Error Core × Ambient ε :=
  match config.check with
  | .error fault => (.error .invalidArgument, a.log (.badConfig fault))
  | .ok () => (.ok (.create placement config), a.log (.initialized config))

namespace Process

/-- Creates the instance of a process, where `present` is the one that it has so far. -/
def start (placement : Placement) (config : Config) (present : Option Core) (a : Ambient ε) :
    Except Error Core × Ambient ε :=
  match present with
  | some _ => (.error .busy, a.log .alreadyInitialized)
  | none => a.start placement config

/-- Drops the instance of a process, where `present` is the one that it has. -/
def stop (present : Option Core) (a : Ambient ε) : Except Error Unit × Ambient ε :=
  match present with
  | none => (.error .notInitialized, a)
  | some core =>
    if core.isIdle then (.ok (), a.log .shutDown)
    else (.error .busy, a.log (.shutdownRefused core.mappings.size core.tasks.size))

end Process

end PeerDma
