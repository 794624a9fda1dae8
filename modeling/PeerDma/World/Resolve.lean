import PeerDma.World.Tasks

/-!
# Sources

Turning chunks into extents that the channels can read. Host chunks are pinned page by page. File
chunks are looked up in the page cache first; pages that are not there are read from their disk
block. The page references taken on the way are collected in sets, one set for each chunk that
took any.
-/

namespace PeerDma

/-- The extents of a host range with the given spans and pages. -/
def hostExtents (spans : List Span) (pages : List HostPage) : List Extent :=
  List.zipWith (fun span page => ⟨.memory, page.dma.raw + span.within, span.length⟩) spans pages

namespace Ambient

variable {ε : Type} (p : Platform ε)

/-- Where to read a span of a file, and the page reference that keeps it there. -/
def locate (file : File) (span : Span) (a : Ambient ε) :
    Except Error (Extent × Option HostPage) × Ambient ε :=
  match a.cachedPage p file span.index with
  | (some page, a) => (.ok (⟨.memory, page.dma.raw + span.within, span.length⟩, some page), a)
  | (none, a) =>
    match a.resolveBlock p file span.index with
    | (.error e, a) => (.error e, a)
    | (.ok block, a) =>
      match (Word.mul? block file.blockSize).bind (Word.add? · span.within) with
      | none => (.error .invalidArgument, a)
      | some source => (.ok (⟨.storage, source, span.length⟩, none), a)

/-- Where to read a range of a file, page by page. If a page cannot be read, the references taken
for those before it are given back. -/
def locateAll (pageSize : Nat) (file : File) (offset length : Nat) (pins : PinSet)
    (a : Ambient ε) : Except Error (List Extent × PinSet) × Ambient ε :=
  if h : pageSize = 0 ∨ length = 0 then (.ok ([], pins), a)
  else
    let span := Span.first pageSize offset length
    have := Span.first_length_pos offset h
    match a.locate p file span with
    | (.error e, a) => (.error e, a.release p pins)
    | (.ok (extent, page), a) =>
      match a.locateAll pageSize file (offset + span.length) (length - span.length)
        (page.elim pins pins.push) with
      | (.error e, a) => (.error e, a)
      | (.ok (extents, pins), a) => (.ok (extent :: extents, pins), a)
termination_by length

/-- The extents of a file range. -/
def resolveFile (pageSize : Nat) (file : Option File) (offset length : Nat) (a : Ambient ε) :
    Except Error (List Extent × List PinSet) × Ambient ε :=
  match file with
  | none => (.error .badDescriptor, a.log .noFile)
  | some file =>
    match Word.add? offset length with
    | none => (.error .invalidArgument, a)
    | some _ =>
      match a.locateAll p pageSize file offset length {} with
      | (.error e, a) => (.error e, a)
      | (.ok (extents, pins), a) => (.ok (extents, if pins.isEmpty then [] else [pins]), a)

end Ambient

namespace World

variable {ε : Type} (p : Platform ε)

/-- Takes references to host pages. The surroundings may clean tasks up first. -/
def pinHost (address count : Nat) (w : World ε) : Except Error (List HostPage) × World ε :=
  let (grant, outside) := p.pinHost address count w.ambient.outside
  let w := { w with ambient := { w.ambient with outside } }
  let w := w.cleanupAll p grant.cleanups
  match grant.pages with
  | .error e => (.error e, w)
  | .ok pages => (.ok pages, w.note (.hostPinned address count pages))

/-- The extents of a host range. -/
def resolveHost (pageSize address length : Nat) (w : World ε) :
    Except Error (List Extent × List PinSet) × World ε :=
  match Word.add? address length with
  | none => (.error .badAddress, w)
  | some stop =>
    let first := Word.alignDown address pageSize
    let count := Word.ceilDiv (stop - first) pageSize
    match w.pinHost p first count with
    | (.error e, w) => (.error e, w)
    | (.ok pages, w) =>
      if pages.length < count then
        let w := w.log (.shortPin pages.length count first)
        (.error .badAddress, w.releaseAll p [⟨pages⟩])
      else
        (.ok (hostExtents (spans pageSize address length) (pages.take count), [⟨pages⟩]), w)

/-- The extents of a chunk. -/
def resolveChunk (file : Option File) (chunk : Chunk) (w : World ε) :
    Except Error (List Extent × List PinSet) × World ε :=
  let pageSize := w.core.config.hostPageSize
  match chunk with
  | .host address length => w.resolveHost p pageSize address length
  | .file offset length => w.liftAmbient (·.resolveFile p pageSize file offset length)

/-- Why chunks have no extents, and the references that have been taken by then. -/
structure Unresolved where
  error : Error
  pins : List PinSet := []
  deriving DecidableEq, Repr

/-- The extents of chunks, and the references that keep them readable. If a chunk has none, the
answer has the references taken for those before it. -/
def resolve (file : Option File) : List Chunk → World ε →
    Except Unresolved (List Extent × List PinSet) × World ε
  | [], w => (.ok ([], []), w)
  | chunk :: rest, w =>
    match w.resolveChunk p file chunk with
    | (.error e, w) => (.error { error := e }, w)
    | (.ok (extents, pins), w) =>
      match w.resolve file rest with
      | (.error stop, w) => (.error { stop with pins := pins ++ stop.pins }, w)
      | (.ok (more, others), w) => (.ok (extents ++ more, pins ++ others), w)

end World

end PeerDma
