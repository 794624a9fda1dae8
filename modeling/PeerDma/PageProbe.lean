import PeerDma.Address

/-!
# Page probes

Where a page of a file would be read from.
-/

namespace PeerDma

/-- The place of a file page. -/
inductive PageLocation where
  /-- In the page cache. -/
  | cached (dma : DmaAddr)
  /-- On disk. -/
  | block (number : Nat)
  /-- Nowhere: the block look-up failed with this status code. -/
  | unmapped (errno : Int)
  deriving DecidableEq, Repr

/-- The place of one file page. -/
structure PageProbe where
  /-- Which page of the file. -/
  index : Nat
  location : PageLocation
  deriving DecidableEq, Repr

end PeerDma
