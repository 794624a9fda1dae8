import PeerDma.Hex

/-!
# Identifiers

Regions have handles, copies have task ids, callers have process ids. Handles and task ids are
given out by an `Allocator`, which counts up from one and never repeats itself.
-/

namespace PeerDma

/-- Names a pinned region. -/
structure Handle where
  id : Nat
  deriving DecidableEq, Repr

/-- Names a copy. -/
structure TaskId where
  id : Nat
  deriving DecidableEq, Repr

/-- The process a region is pinned for. -/
structure Pid where
  id : Nat
  deriving DecidableEq, Repr

/-- A handle as messages write it. -/
def Handle.text (h : Handle) : String := Hex.plain h.id

/-- A task id as messages write it. -/
def TaskId.text (t : TaskId) : String := Hex.plain t.id

/-- A process id as messages write it, in decimal. -/
def Pid.text (p : Pid) : String := toString p.id

/-- Gives out numbers that have not been given out before. -/
structure Allocator where
  next : Nat := 1
  deriving DecidableEq, Repr

namespace Allocator

/-- The next number, and the allocator after it. -/
def allocate (a : Allocator) : Nat × Allocator := (a.next, ⟨a.next + 1⟩)

/-- The first `count` numbers still to come, and the allocator after them. -/
def allocateMany (a : Allocator) (count : Nat) : List Nat × Allocator :=
  (List.range' a.next count, ⟨a.next + count⟩)

/-- The allocator with the number it will give out next. -/
def describe (a : Allocator) : String :=
  "HandleAllocator \x7b next: " ++ toString a.next ++ " \x7d"

end Allocator

end PeerDma
