import PeerDma.Address

/-!
# Pinned host pages

A `HostPage` is a reference to a page of host memory or of the page cache. References come in
sets, and a set is given back as a whole.
-/

namespace PeerDma

/-- A reference to a host page. -/
structure HostPage where
  dma : DmaAddr
  deriving DecidableEq, Repr

/-- Page references that are given back together. -/
structure PinSet where
  pages : List HostPage := []
  deriving DecidableEq, Repr

namespace PinSet

/-- The number of references. -/
def size (s : PinSet) : Nat := s.pages.length

/-- Whether there is no reference. -/
def isEmpty (s : PinSet) : Bool := s.pages.isEmpty

/-- The set with one more reference. -/
def push (s : PinSet) (page : HostPage) : PinSet := ⟨s.pages ++ [page]⟩

/-- The set with its number of references. -/
def describe (s : PinSet) : String := "PinnedPages \x7b pages: " ++ toString s.size ++ " \x7d"

end PinSet

end PeerDma
