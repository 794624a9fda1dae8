/-!
# One-shot signals

Two actions travel to the surroundings and run at most once: a `Completion` ends a submission,
an `EvictionNotice` takes a pinned range back. They differ in what happens when they are thrown
away: a completion runs even then, a notice does not.
-/

namespace PeerDma

/-- Ends a submission. -/
structure Completion where
  /-- Whether the action has not run yet. -/
  pending : Bool := true
  deriving DecidableEq, Repr

namespace Completion

/-- Runs the action if it has not run yet; the answer is whether it does. -/
def complete (c : Completion) : Bool × Completion := (c.pending, ⟨false⟩)

/-- Throwing a completion away completes it. -/
def discard (c : Completion) : Bool × Completion := c.complete

/-- The completion with its state. -/
def describe (c : Completion) : String :=
  "CopyCompletion \x7b pending: " ++ toString c.pending ++ " \x7d"

end Completion

/-- Takes a pinned range back. -/
structure EvictionNotice where
  /-- Whether there is an action to run. -/
  armed : Bool := true
  deriving DecidableEq, Repr

namespace EvictionNotice

/-- A notice without an action. -/
def idle : EvictionNotice := ⟨false⟩

/-- Runs the action, if there is one; the answer is whether it does. -/
def fire (n : EvictionNotice) : Bool × EvictionNotice := (n.armed, ⟨false⟩)

/-- Throwing a notice away does nothing. -/
def discard (_ : EvictionNotice) : Bool × EvictionNotice := (false, ⟨false⟩)

/-- The notice with its state. -/
def describe (n : EvictionNotice) : String :=
  "EvictionNotice \x7b armed: " ++ toString n.armed ++ " \x7d"

end EvictionNotice

end PeerDma
