import PeerDma.Address
import PeerDma.Identifier
import PeerDma.Layout
import PeerDma.PageSize

/-!
# Regions

A region is a pinned range of device memory with its page table. The caller's address lies
`offset` bytes above the rounded-down `base`; positions in the region count from `base`.
-/

namespace PeerDma

/-- Why a pin ends. -/
inductive Cause where
  /-- The owner gives it up. -/
  | unmap
  /-- The device takes it back. -/
  | evicted
  deriving DecidableEq, Repr

/-- The cause's name in messages. -/
def Cause.name : Cause → String
  | unmap => "Unmap"
  | evicted => "Evicted"

/-- A page table as the device's pager hands it out. -/
structure PageTable where
  version : Nat
  /-- Names the page size. -/
  code : Nat
  pages : List PhysAddr
  deriving DecidableEq, Repr

/-- A pinned range of device memory. -/
structure Region where
  handle : Handle
  owner : Pid
  base : GpuAddr
  offset : Nat
  length : Nat
  pageSize : PageSize
  table : PageTable
  deriving DecidableEq, Repr

namespace Region

/-- Bytes pinned from `base` on. -/
def mappedLength (r : Region) : Nat := r.offset + r.length

/-- Physical pages, in virtual order. -/
def pages (r : Region) : List PhysAddr := r.table.pages

/-- The region as a destination. -/
def layout (r : Region) : Layout := ⟨r.pageSize.bytes, r.pages.toArray⟩

/-- Why a range is not in a region. -/
inductive WindowFault where
  /-- Its positions are not words. -/
  | overflow
  /-- It ends past the region. -/
  | outside (start stop : Nat)
  deriving DecidableEq, Repr

/-- The position `offset` bytes past the caller's address, if `length` bytes from there lie in
the region. -/
def window (r : Region) (offset length : Nat) : Except WindowFault Nat :=
  match Word.add? r.offset offset with
  | none => .error .overflow
  | some start =>
    match Word.add? start length with
    | none => .error .overflow
    | some stop => if r.mappedLength < stop then .error (.outside start stop) else .ok start

end Region

end PeerDma
