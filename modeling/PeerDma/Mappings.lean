import PeerDma.Region
import PeerDma.Sharded
import PeerDma.WaitSlot

/-!
# The regions of an instance

A region is registered, in the table that look-ups see, or draining: taken out of the table by a
teardown that waits for its users. Each keeps count of its references. A map in progress is listed
as pending, so that an eviction can meet it before its region is registered.

* `begin`, `revoke?`, `finish`: a map in progress, an eviction that meets it, and its end.
* `register`, `acquire?`, `put?`: a new region, one reference more, one fewer.
* `detach?`, `drain`, `forget`: a region leaves the table, waits for its users, is gone.
-/

namespace PeerDma

/-- A region and who uses it. -/
structure RegionUse where
  region : Region
  /-- References that have not been given back. The count is kept in 32 bits, which are enough for
  fewer than `2 ^ 32` references at once. -/
  refs : Nat := 0
  /-- Where the teardown of the region waits. -/
  slot : WaitSlot := {}
  deriving DecidableEq, Repr

/-- One reference fewer, and whom that wakes; nothing if there was no reference. -/
def RegionUse.put? (u : RegionUse) : Option (Option Waiter × RegionUse) :=
  match u.refs with
  | 0 => none
  | 1 =>
    let (slot, occupant) := u.slot.take
    some (occupant, { u with refs := 0, slot })
  | n + 2 => some (none, { u with refs := n + 1 })

/-- A map between its pin and its registration. -/
structure PendingMap where
  handle : Handle
  /-- Whether the device has taken the range back meanwhile. -/
  revoked : Bool := false
  deriving DecidableEq, Repr

/-- What has happened to regions so far. -/
structure MappingStats where
  mapped : Nat := 0
  released : Nat := 0
  /-- Teardowns that the device asked for. -/
  evicted : Nat := 0
  deriving DecidableEq, Repr

/-- The regions of an instance. -/
structure Mappings where
  /-- Registered regions. -/
  table : Sharded Handle RegionUse
  /-- Regions out of the table whose teardown waits. -/
  draining : Table Handle RegionUse := .empty
  pending : List PendingMap := []
  handles : Allocator := {}
  /-- The alignment of pinned ranges. -/
  bound : Nat
  stats : MappingStats := {}

namespace Mappings

/-- No regions yet. -/
def empty (place : Handle → Nat) (shards bound : Nat) : Mappings where
  table := .empty place shards
  bound := bound

/-- The number of registered regions. -/
def size (m : Mappings) : Nat := m.table.size

/-- Whether no region is registered. -/
def isEmpty (m : Mappings) : Bool := m.table.isEmpty

/-- A region that is registered or draining. -/
def use? (m : Mappings) (handle : Handle) : Option RegionUse :=
  (m.table.find? handle).or (m.draining.find? handle)

/-- Starts a map under a new handle. -/
def begin (m : Mappings) : Handle × Mappings :=
  let (id, handles) := m.handles.allocate
  (⟨id⟩, { m with handles, pending := m.pending ++ [{ handle := ⟨id⟩ }] })

/-- Notes an eviction of a range whose map is in progress; nothing if it is not. -/
def revoke? (m : Mappings) (handle : Handle) : Option Mappings :=
  if m.pending.any (·.handle = handle) then
    some { m with
      pending := m.pending.map fun p => if p.handle = handle then { p with revoked := true } else p }
  else none

/-- Ends a map; the answer is whether the device has taken the range back. -/
def finish (m : Mappings) (handle : Handle) : Bool × Mappings :=
  (m.pending.any fun p => p.handle = handle && p.revoked,
    { m with pending := m.pending.filter (·.handle ≠ handle) })

/-- Registers a region that nobody uses yet. -/
def register (m : Mappings) (region : Region) : Mappings :=
  { m with table := m.table.insert region.handle { region } }

/-- One reference more on a registered region. -/
def acquire? (m : Mappings) (handle : Handle) : Option (RegionUse × Mappings) :=
  (m.table.find? handle).map fun u =>
    let u := { u with refs := u.refs + 1 }
    (u, { m with table := m.table.insert handle u })

/-- One reference fewer on a region that is registered or draining, and whom that wakes; nothing
if it has no reference. -/
def put? (m : Mappings) (handle : Handle) : Option (Option Waiter × Mappings) :=
  match m.table.find? handle with
  | some u => u.put?.map fun (woken, u) => (woken, { m with table := m.table.insert handle u })
  | none =>
    match m.draining.find? handle with
    | some u =>
      u.put?.map fun (woken, u) => (woken, { m with draining := m.draining.insert handle u })
    | none => none

/-- Takes a region out of the table. -/
def detach? (m : Mappings) (handle : Handle) : Option (RegionUse × Mappings) :=
  (m.table.find? handle).map fun u => (u, { m with table := m.table.erase handle })

/-- Lists a region whose teardown waits. -/
def drain (m : Mappings) (u : RegionUse) : Mappings :=
  { m with draining := m.draining.insert u.region.handle u }

/-- Counts a teardown, which no longer waits. -/
def forget (m : Mappings) (handle : Handle) : Mappings :=
  { m with
    draining := m.draining.erase handle
    stats := { m.stats with released := m.stats.released + 1 } }

/-- Counts a map. -/
def countMapped (m : Mappings) : Mappings :=
  { m with stats := { m.stats with mapped := m.stats.mapped + 1 } }

/-- Counts an eviction. -/
def countEvicted (m : Mappings) : Mappings :=
  { m with stats := { m.stats with evicted := m.stats.evicted + 1 } }

end Mappings

end PeerDma
