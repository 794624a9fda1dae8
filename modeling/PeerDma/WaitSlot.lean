/-!
# Waiting

A call that has to wait makes a `Waiter` and leaves it in the `WaitSlot` of what it waits for. A
slot keeps one waiter: installing another displaces the first, which the newcomer then holds and
wakes once it has been woken itself.

`WaitRoom` follows waiters through one slot: where each is, and which have been woken.
-/

namespace PeerDma

/-- Stands for one waiting call. -/
structure Waiter where
  id : Nat
  deriving DecidableEq, Repr

/-- Room for one waiter. -/
structure WaitSlot where
  occupant : Option Waiter := none
  deriving DecidableEq, Repr

namespace WaitSlot

/-- The slot with nobody in it. -/
def empty : WaitSlot := {}

/-- Whether somebody is in the slot. -/
def isOccupied (s : WaitSlot) : Bool := s.occupant.isSome

/-- The slot with a new waiter, and the waiter it displaces. -/
def install (s : WaitSlot) (w : Waiter) : WaitSlot × Option Waiter := (⟨some w⟩, s.occupant)

/-- The slot left empty, and who was in it. -/
def take (s : WaitSlot) : WaitSlot × Option Waiter := (empty, s.occupant)

end WaitSlot

/-- Waiters around one slot. Each is in one of the lists, or in the slot. -/
structure WaitRoom where
  /-- How many waiters there are. -/
  count : Nat := 0
  /-- Made and not yet used. -/
  idle : List Waiter := []
  slot : WaitSlot := {}
  /-- Taken out of the slot and not yet woken. -/
  taken : List Waiter := []
  /-- Displaced from the slot and not yet woken, the last one displaced first. -/
  displaced : List Waiter := []
  woken : List Waiter := []
  /-- Woken, and back from waiting. -/
  returned : List Waiter := []
  deriving Repr

namespace WaitRoom

/-- Makes a waiter. -/
def make (r : WaitRoom) : Waiter × WaitRoom :=
  (⟨r.count⟩, { r with count := r.count + 1, idle := r.idle ++ [⟨r.count⟩] })

/-- Puts an idle waiter into the slot; the answer is whether it displaces another. -/
def install (r : WaitRoom) (w : Waiter) : Option Bool × WaitRoom :=
  if w ∈ r.idle then
    let (slot, previous) := r.slot.install w
    (some previous.isSome,
      { r with slot, idle := r.idle.erase w, displaced := previous.toList ++ r.displaced })
  else (none, r)

/-- Takes the waiter out of the slot; the answer is whether there was one. -/
def take (r : WaitRoom) : Bool × WaitRoom :=
  let (slot, occupant) := r.slot.take
  (occupant.isSome, { r with slot, taken := r.taken ++ occupant.toList })

/-- Wakes an idle waiter. -/
def wake (r : WaitRoom) (w : Waiter) : Option Unit × WaitRoom :=
  if w ∈ r.idle then
    (some (), { r with idle := r.idle.erase w, woken := r.woken ++ [w] })
  else (none, r)

/-- Wakes the waiters taken out of the slot; the answer is their number. -/
def wakeTaken (r : WaitRoom) : Nat × WaitRoom :=
  (r.taken.length, { r with taken := [], woken := r.woken ++ r.taken })

/-- Wakes the displaced waiters; the answer is their number. -/
def wakeDisplaced (r : WaitRoom) : Nat × WaitRoom :=
  (r.displaced.length, { r with displaced := [], woken := r.woken ++ r.displaced })

/-- Whether a waiter has been woken and its call has not come back yet. -/
def canReturn (r : WaitRoom) (w : Waiter) : Bool := r.woken.contains w && !r.returned.contains w

/-- The call of a woken waiter comes back. -/
def park (r : WaitRoom) (w : Waiter) : Option Unit × WaitRoom :=
  if r.canReturn w then (some (), { r with returned := w :: r.returned }) else (none, r)

/-- The call of a woken waiter comes back and wakes the waiter displaced last; the answer is
whether there is one. -/
def parkAndForward (r : WaitRoom) (w : Waiter) : Option Bool × WaitRoom :=
  if r.canReturn w then
    (some (!r.displaced.isEmpty),
      { r with
        returned := w :: r.returned
        displaced := r.displaced.tail
        woken := r.woken ++ r.displaced.head?.toList })
  else (none, r)

/-- For every waiter made so far: whether it has been woken, or nothing once its call is back. -/
def status (r : WaitRoom) : List (Option Bool) :=
  (List.range r.count).map fun i =>
    if r.returned.contains ⟨i⟩ then none else some (r.woken.contains ⟨i⟩)

end WaitRoom

end PeerDma
