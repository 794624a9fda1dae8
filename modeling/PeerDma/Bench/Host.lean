import PeerDma.Platform

/-!
# Host memory for experiments

The page at address `a` has the bus address `0x8000_0000_0000 + a`, or one far from its neighbours
if the memory is scattered. Pins can be made to fail, to fall short and to come with more pages
than asked for.
-/

namespace PeerDma

namespace Bench

/-- Scripted host memory. -/
structure Host where
  pageSize : Nat := 4096
  scattered : Bool := false
  /-- The most pages that one pin gets. -/
  limit : Option Nat := none
  failNext : Option Error := none
  /-- Pages that each pin asks for in addition. -/
  extra : Nat := 0
  deriving DecidableEq, Repr

namespace Host

/-- The bus address of address zero. -/
def dmaBase : Nat := 0x800000000000

/-- The bus address of an address. -/
def dmaOf (h : Host) (address : Nat) : Nat :=
  if h.scattered then
    dmaBase + address / h.pageSize * h.pageSize * 2 + address % h.pageSize
  else dmaBase + address

/-- `count` pages from an address on, or as many as the limit allows. -/
def grant (h : Host) (address count : Nat) : List HostPage :=
  let granted := h.limit.elim count (min · count)
  (List.range granted).map fun i => ⟨⟨h.dmaOf (address + i * h.pageSize)⟩⟩

/-- Pins pages from an address on. -/
def pin (h : Host) (address count : Nat) : Except Error (List HostPage) × Host :=
  match h.failNext with
  | some e => (.error e, { h with failNext := none })
  | none => (.ok (h.grant address (count + h.extra)), h)

end Host

end Bench

end PeerDma
