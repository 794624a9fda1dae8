import PeerDma.Region
import PeerDma.WaitSlot

/-!
# Parked calls

A call that waits is parked under its waiter, together with what is left to do once it is woken
and the waiter it displaced. Waking one call wakes, through the displaced waiters, a chain of
calls (`rouse`).
-/

namespace PeerDma

/-- What a parked call does once it is woken. -/
inductive Rest where
  /-- Unpins a region that it has taken out of the table. -/
  | teardown (region : Region) (cause : Cause)
  /-- Unpins a region that the device has taken back. -/
  | eviction (region : Region)
  /-- Reports the end of a task. -/
  | wait
  /-- Reports the end of the task that the call itself has admitted. -/
  | copy (task : TaskId)
  deriving DecidableEq, Repr

/-- What a parked call reports in the end. -/
inductive Reply where
  | done
  | copied (task : TaskId)
  deriving DecidableEq, Repr

/-- The report of a call with the given rest. -/
def Rest.reply : Rest → Reply
  | teardown .. => .done
  | eviction _ => .done
  | wait => .done
  | copy task => .copied task

/-- A parked call. -/
structure Sleeper where
  waiter : Waiter
  /-- Whom the call wakes once it is woken. -/
  displaced : Option Waiter
  rest : Rest
  deriving DecidableEq, Repr

/-- The calls that are not parked under a waiter. -/
def without (w : Waiter) (sleepers : List Sleeper) : List Sleeper :=
  sleepers.filter (·.waiter ≠ w)

theorem length_without_lt {w : Waiter} {sleepers : List Sleeper} {s : Sleeper}
    (h : sleepers.find? (·.waiter = w) = some s) :
    (without w sleepers).length < sleepers.length := by
  have hw : s.waiter = w := by simpa using List.find?_some h
  exact List.length_filter_lt_length_iff_exists.2
    ⟨s, List.mem_of_find?_eq_some h, by simp [hw]⟩

/-- Takes out of a list of parked calls the one under a waiter, the one under the waiter it
displaced, and so on. The first list has the calls taken out, the second one what is left. -/
def rouse (w : Waiter) (sleepers : List Sleeper) : List Sleeper × List Sleeper :=
  match h : sleepers.find? (·.waiter = w) with
  | none => ([], sleepers)
  | some s =>
    have := length_without_lt h
    match s.displaced with
    | none => ([s], without w sleepers)
    | some next =>
      let (more, left) := rouse next (without w sleepers)
      (s :: more, left)
termination_by sleepers.length

/-- The parked calls of an instance. -/
structure Parking where
  next : Nat := 0
  sleepers : List Sleeper := []
  deriving DecidableEq, Repr

namespace Parking

/-- A waiter for a call that is about to park. -/
def fresh (p : Parking) : Waiter × Parking := (⟨p.next⟩, { p with next := p.next + 1 })

/-- Parks a call. -/
def park (p : Parking) (s : Sleeper) : Parking := { p with sleepers := p.sleepers ++ [s] }

end Parking

end PeerDma
