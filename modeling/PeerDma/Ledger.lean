import PeerDma.Platform

/-!
# The ledger

What the library owes its surroundings, read off the history: pins and page references that it
has obtained and not given back.
-/

namespace PeerDma

/-- Pins and page references that have not been given back. -/
structure Ledger where
  pins : Int := 0
  pages : Int := 0
  deriving DecidableEq, Repr

/-- The ledger after an event. -/
def Ledger.record (l : Ledger) : Event → Ledger
  | .pinned .. => { l with pins := l.pins + 1 }
  | .unpinned .. => { l with pins := l.pins - 1 }
  | .hostPinned _ _ pages => { l with pages := l.pages + pages.length }
  | .cacheHit .. => { l with pages := l.pages + 1 }
  | .released pages => { l with pages := l.pages - pages.length }
  | _ => l

/-- The ledger after a history. -/
def Ledger.ofHistory (history : List Event) : Ledger :=
  history.foldr (fun e l => l.record e) {}

end PeerDma
