import PeerDma.World.Requests

/-!
# Commands

Callers that cannot call the operations directly fill in a block and choose a command by number.
Some fields of a block are for the answer. `World.dispatch` folds the outcome into a status: zero,
or the code of the error.

* A number that is not that of the block's own command is refused.
* The fields for the answer are filled in only if the command succeeds.
* A block whose command waits is filled in by `Block.complete` when the wait is over.
-/

namespace PeerDma

/-- A chunk as a command carries it. -/
structure WireChunk where
  tag : Nat
  location : Nat
  length : Nat
  deriving DecidableEq, Repr

/-- A chunk for a command. -/
def Chunk.toWire (c : Chunk) : WireChunk := ⟨c.tag, c.start, c.length⟩

/-- The chunk that a command carries. -/
def WireChunk.decode (c : WireChunk) : Except Chunk.Fault Chunk :=
  Chunk.ofWire c.tag c.location c.length

/-- The block of a command that pins memory. -/
structure MapBlock where
  /-- For the answer. -/
  handle : Nat := 0
  /-- For the answer. -/
  pageSize : Nat := 0
  /-- For the answer. -/
  pages : Nat := 0
  address : Nat
  length : Nat
  deriving DecidableEq, Repr

/-- The block of a command that reads a page table. -/
structure InfoBlock where
  handle : Nat
  /-- How many pages the caller has room for. -/
  rooms : Nat
  /-- For the answer. -/
  version : Nat := 0
  /-- For the answer. -/
  pageSize : Nat := 0
  /-- For the answer. -/
  entries : Nat := 0
  /-- For the answer, as long as the caller has made it. -/
  physical : List Nat
  deriving DecidableEq, Repr

/-- The block of a command that copies. -/
structure CopyBlock where
  /-- For the answer. -/
  task : Nat := 0
  handle : Nat
  offset : Nat
  /-- The source file, negative for none. -/
  descriptor : Int
  /-- How many chunks the caller says there are. -/
  count : Nat
  chunks : List WireChunk
  deriving DecidableEq, Repr

/-- A command with what it needs. -/
inductive Block where
  | checkFile (descriptor : Int)
  | map (block : MapBlock)
  | unmap (handle : Nat)
  | info (block : InfoBlock)
  | copy (block : CopyBlock)
  | copyAsync (block : CopyBlock)
  | wait (task : Nat)
  | debug (descriptor : Int) (offset length : Nat)
  deriving DecidableEq, Repr

/-- The command that a block belongs to. -/
def Block.code : Block → CommandCode
  | checkFile _ => .checkFile
  | map _ => .map
  | unmap _ => .unmap
  | info _ => .info
  | copy _ => .copy
  | copyAsync _ => .copyAsync
  | wait _ => .wait
  | debug .. => .debug

/-- The block with the answer of a map. -/
def MapBlock.fill (b : MapBlock) (m : Mapping) : MapBlock :=
  { b with handle := m.handle.id, pageSize := m.pageSize.bytes, pages := m.entries }

/-- How many pages fit both the caller's claim and the room there is. -/
def InfoBlock.capacity (b : InfoBlock) : Nat := min b.physical.length b.rooms

/-- The block with a copy of a page table; room that is not needed stays as it was. -/
def InfoBlock.fill (b : InfoBlock) (i : RegionInfo) : InfoBlock :=
  { b with
    version := i.version
    pageSize := i.pageSize.bytes
    entries := i.entries
    physical := i.physical.map PhysAddr.raw ++ b.physical.drop i.physical.length }

/-- The block with the task of the copy. -/
def CopyBlock.fill (b : CopyBlock) (id : TaskId) : CopyBlock := { b with task := id.id }

/-- A block whose parked command has come back. -/
def Block.complete (b : Block) (reply : Reply) : Block :=
  match b, reply with
  | .copy block, .copied id => .copy (block.fill id)
  | b, _ => b

/-- The status and the block of a parked command that has come back. Whatever waits succeeds. -/
def Block.settle (b : Block) (reply : Reply) : Int × Block := (0, b.complete reply)

/-- Why a copy block makes no request. -/
inductive CopyBlock.Fault where
  /-- The caller's count is not the number of chunks. -/
  | count
  | chunk (fault : Chunk.Fault)
  deriving DecidableEq, Repr

/-- The entry for a faulty copy block. -/
def CopyBlock.Fault.entry? (b : CopyBlock) : CopyBlock.Fault → Option Log.Entry
  | .count => some (.chunkCount b.count b.chunks.length)
  | .chunk fault => fault.entry?

/-- The request that a copy block makes. -/
def CopyBlock.order (b : CopyBlock) : Except CopyBlock.Fault CopyOrder :=
  if b.count ≠ b.chunks.length then .error .count
  else
    match b.chunks.mapM WireChunk.decode with
    | .error fault => .error (.chunk fault)
    | .ok chunks =>
      .ok ⟨⟨b.handle⟩, if b.descriptor < 0 then none else some b.descriptor, b.offset, chunks⟩

namespace World

variable {ε : Type} (p : Platform ε)

/-- Writes a probe to the log. -/
def logProbe (probe : PageProbe) (a : Ambient ε) : Ambient ε := a.log (.probed probe)

/-- The request of a copy block, or the error for its fault. -/
def decodeCopy (b : CopyBlock) (w : World ε) : Except Error CopyOrder × World ε :=
  match b.order with
  | .ok order => (.ok order, w)
  | .error fault => (.error .invalidArgument, w.log? (fault.entry? b))

/-- Carries a command out for a caller; the answer has the block as it is afterwards. -/
def execute (caller : Pid) (block : Block) (w : World ε) :
    Outcome (Except Error Block) × World ε :=
  match block with
  | .checkFile descriptor =>
    let (answer, w) := w.checkFile p descriptor
    (.returned (answer.map fun _ => block), w)
  | .map b =>
    let (answer, w) := w.map p caller ⟨b.address⟩ b.length
    (.returned (answer.map fun m => .map (b.fill m)), w)
  | .unmap handle =>
    let (answer, w) := w.teardown p ⟨handle⟩ .unmap
    (answer.map (·.map fun _ => block), w)
  | .info b =>
    let (answer, w) := w.info p ⟨b.handle⟩ b.capacity
    (.returned (answer.map fun i => .info (b.fill i)), w)
  | .copy b =>
    match w.decodeCopy b with
    | (.error e, w) => (.returned (.error e), w)
    | (.ok order, w) =>
      let (answer, w) := w.copy p order
      (answer.map (·.map fun id => .copy (b.fill id)), w)
  | .copyAsync b =>
    match w.decodeCopy b with
    | (.error e, w) => (.returned (.error e), w)
    | (.ok order, w) =>
      let (answer, w) := w.copyAsync p order
      (.returned (answer.map fun id => .copyAsync (b.fill id)), w)
  | .wait task =>
    let (answer, w) := w.wait ⟨task⟩
    (answer.map (·.map fun _ => block), w)
  | .debug descriptor offset length =>
    let (answer, w) := w.probe p logProbe descriptor offset length
    (.returned (answer.map fun _ => block), w)

/-- The status of a failed command, which goes to the log; the block stays as it was. -/
def failCommand (number : Nat) (block : Block) (e : Error) (w : World ε) :
    Outcome (Int × Block) × World ε :=
  (.returned (e.errno, block), w.log (.commandFailed number e))

/-- Carries the command with a number out for a caller. The answer is the status, zero for
success, and the block as it is afterwards. -/
def dispatch (caller : Pid) (number : Nat) (block : Block) (w : World ε) :
    Outcome (Int × Block) × World ε :=
  match CommandCode.ofNumber? number with
  | none => w.failCommand number block .invalidArgument
  | some code =>
    if code ≠ block.code then
      (w.log (.wrongBlock number block.code)).failCommand number block .invalidArgument
    else
      match w.execute p caller block with
      | (.parked waiter, w) => (.parked waiter, w)
      | (.returned (.ok block), w) => (.returned (0, block), w)
      | (.returned (.error e), w) => w.failCommand number block e

end World

end PeerDma
