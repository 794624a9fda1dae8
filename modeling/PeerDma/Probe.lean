import PeerDma.Platform

/-!
# Probing files

`Ambient.probe` reports for every page of a file range where it would be read from. The range ends
with the file; a reference that a look-up takes is given back before the page is reported.
-/

namespace PeerDma

/-- The numbers of the pages that hold a byte of the range inside a file of `size` bytes. -/
def pagesInRange (size pageSize offset length : Nat) : List Nat :=
  let stop := min (Word.addSat offset length) size
  if stop ≤ offset then []
  else
    let first := offset / pageSize
    List.range' first (Word.ceilDiv stop pageSize - first)

namespace Ambient

variable {ε : Type} (p : Platform ε)

/-- The place of one page. -/
def probePage (file : File) (index : Nat) (a : Ambient ε) : PageProbe × Ambient ε :=
  match a.cachedPage p file index with
  | (some page, a) => (⟨index, .cached page.dma⟩, a.release p ⟨[page]⟩)
  | (none, a) =>
    match a.resolveBlock p file index with
    | (.ok number, a) => (⟨index, .block number⟩, a)
    | (.error e, a) => (⟨index, .unmapped e.errno⟩, a)

/-- The places of pages, each handed to `visit` as soon as it is known. -/
def probePages (visit : PageProbe → Ambient ε → Ambient ε) (file : File) :
    List Nat → Ambient ε → List PageProbe × Ambient ε
  | [], a => ([], a)
  | index :: rest, a =>
    let (probe, a) := a.probePage p file index
    let (probes, a) := probePages visit file rest (visit probe a)
    (probe :: probes, a)

/-- The places of the pages of a file range. -/
def probe (visit : PageProbe → Ambient ε → Ambient ε) (pageSize : Nat) (file : File)
    (offset length : Nat) (a : Ambient ε) : List PageProbe × Ambient ε :=
  a.probePages p visit file (pagesInRange file.size pageSize offset length)

end Ambient

end PeerDma
