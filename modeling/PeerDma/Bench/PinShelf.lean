import PeerDma.Bench.Host

/-!
# Sets of pinned pages on a shelf

Sets of references to pages of one host memory, kept by number, with the count of references that
have not been given back.
-/

namespace PeerDma

namespace Bench

/-- Numbered sets, some of which have been given back. -/
structure PinShelf where
  host : Host
  sets : List (Option PinSet) := []
  /-- References that have not been given back. -/
  live : Nat := 0
  deriving Repr

namespace PinShelf

/-- Pins pages into a new set; the answer is its number. -/
def pin (s : PinShelf) (address count : Nat) : Nat × PinShelf :=
  let pages := s.host.grant address count
  (s.sets.length, { s with sets := s.sets ++ [some ⟨pages⟩], live := s.live + pages.length })

/-- The set with a number, if it has not been given back. -/
def get? (s : PinShelf) (index : Nat) : Option PinSet := s.sets[index]?.join

/-- Pins one page more into a set; the answer is the size of the set. The page is pinned even if
the set has been given back. -/
def push (s : PinShelf) (index address : Nat) : Option Nat × PinShelf :=
  let pages := s.host.grant address 1
  let s := { s with live := s.live + pages.length }
  match s.get? index with
  | none => (none, s)
  | some set =>
    let set := pages.foldl PinSet.push set
    (some set.size, { s with sets := s.sets.set index (some set) })

/-- Gives a set back; the answer is whether it was there. -/
def drop (s : PinShelf) (index : Nat) : Bool × PinShelf :=
  match s.get? index with
  | none => (false, s)
  | some set => (true, { s with sets := s.sets.set index none, live := s.live - set.size })

end PinShelf

end Bench

end PeerDma
