import PeerDma.Chunk
import PeerDma.CommandCode
import PeerDma.Config
import PeerDma.Error
import PeerDma.Hex
import PeerDma.PageProbe
import PeerDma.Region
import PeerDma.Run

/-!
# Log

What the library has to say while it works. `Log.Entry` lists the occasions, `Entry.level` grades
them and `Entry.text` puts them in words; all wording of the log is in this module.
-/

namespace PeerDma

namespace Log

/-- How much an entry matters. -/
inductive Level where
  | error
  | warn
  | info
  | debug
  | trace
  deriving DecidableEq, Repr

/-- The level as it stands before a line. -/
def Level.name : Level → String
  | error => "ERROR"
  | warn => "WARN"
  | info => "INFO"
  | debug => "DEBUG"
  | trace => "TRACE"

/-- An occasion to write a line. -/
inductive Entry where
  -- The instance.
  | badConfig (fault : Config.Fault)
  | initialized (config : Config)
  | alreadyInitialized
  | shutdownRefused (regions tasks : Nat)
  | shutDown
  -- Regions.
  | badMapping (address : GpuAddr) (length : Nat)
  | pinFailed (base : GpuAddr) (length : Nat) (error : Error)
  | unknownPageSize (code : Nat)
  | shortTable (entries length : Nat)
  | rollbackFailed (base : GpuAddr) (error : Error)
  | mapped (region : Region)
  | pageMapped (virt phys : Nat)
  | evictedWhileMapping (handle : Handle)
  | regionNotFound (handle : Handle)
  | outsideRegion (start stop : Nat) (handle : Handle) (length : Nat)
  | teardownWaits (handle : Handle)
  | unpinFailed (handle : Handle) (error : Error)
  | released (handle : Handle) (cause : Cause)
  | evicted (handle : Handle)
  | evictionAfterRelease (handle : Handle)
  | refUnderflow (handle : Handle)
  -- Requests.
  | ineligible (reason : Refusal)
  | unknownTag (tag : Nat)
  | noChunks
  | badChunk (index start length : Nat)
  | noDescriptor
  -- Tasks.
  | admitted (task : TaskId)
  | launchedAfterCleanup (task : TaskId)
  | noFile
  | shortPin (pinned wanted address : Nat)
  | unresolved (task : TaskId) (error : Error)
  | resolved (task : TaskId) (extents length : Nat)
  | submitting (task : TaskId) (run : Run)
  | outsideTable (position : Nat)
  | stopped (task : TaskId) (error : Error)
  | unknownTask (task : TaskId)
  | completed (task : TaskId)
  -- Commands.
  | wrongBlock (number : Nat) (block : CommandCode)
  | chunkCount (declared carried : Nat)
  | commandFailed (number : Nat) (error : Error)
  | probed (probe : PageProbe)
  deriving DecidableEq, Repr

namespace Entry

/-- How much an entry matters. -/
def level : Entry → Level
  | badConfig _ => .error
  | initialized _ => .info
  | alreadyInitialized => .error
  | shutdownRefused .. => .warn
  | shutDown => .info
  | badMapping .. => .error
  | pinFailed .. => .error
  | unknownPageSize _ => .error
  | shortTable .. => .error
  | rollbackFailed .. => .error
  | mapped _ => .info
  | pageMapped .. => .debug
  | evictedWhileMapping _ => .warn
  | regionNotFound _ => .error
  | outsideRegion .. => .error
  | teardownWaits _ => .debug
  | unpinFailed .. => .error
  | released .. => .info
  | evicted _ => .warn
  | evictionAfterRelease _ => .debug
  | refUnderflow _ => .error
  | ineligible _ => .warn
  | unknownTag _ => .error
  | noChunks => .error
  | badChunk .. => .error
  | noDescriptor => .error
  | admitted _ => .debug
  | launchedAfterCleanup _ => .error
  | noFile => .error
  | shortPin .. => .error
  | unresolved .. => .error
  | resolved .. => .debug
  | submitting .. => .trace
  | outsideTable _ => .error
  | stopped .. => .error
  | unknownTask _ => .warn
  | completed _ => .debug
  | wrongBlock .. => .error
  | chunkCount .. => .error
  | commandFailed .. => .debug
  | probed _ => .info

/-- A probe in words. -/
def probeText (probe : PageProbe) : String :=
  "file index=" ++ toString probe.index ++
    match probe.location with
    | .cached dma => " cached at " ++ dma.describe
    | .block number => " blocknr=" ++ toString number
    | .unmapped errno => " block lookup failed: " ++ toString errno

/-- An entry in words. -/
def text : Entry → String
  | badConfig fault => fault.message
  | initialized config =>
    "initialized (" ++ toString config.mappingShards ++ " mapping shards, " ++
      toString config.taskShards ++ " task shards, " ++ Hex.plain config.boundSize ++
      " byte GPU bound)"
  | alreadyInitialized => "already initialized"
  | shutdownRefused regions tasks =>
    "shutdown refused with " ++ toString regions ++ " regions and " ++ toString tasks ++
      " tasks live"
  | shutDown => "shut down"
  | badMapping address length =>
    "invalid mapping request " ++ address.text ++ " + " ++ Hex.plain length
  | pinFailed base length error =>
    "failed to pin GPU memory " ++ base.text ++ "..+" ++ Hex.plain length ++ ": " ++
      error.message
  | unknownPageSize code => "unknown GPU page size code " ++ toString code
  | shortTable entries length =>
    "page table of " ++ toString entries ++ " entries does not cover " ++ Hex.plain length ++
      " bytes"
  | rollbackFailed base error =>
    "failed to roll back pin of " ++ base.text ++ ": " ++ error.message
  | mapped region =>
    "mapped handle=" ++ region.handle.text ++ " owner=" ++ region.owner.text ++ " version=" ++
      toString region.table.version ++ " page_size=" ++ region.pageSize.text ++ " entries=" ++
      toString region.pages.length
  | pageMapped virt phys => "V:" ++ Hex.padded 16 virt ++ " <--> P:" ++ Hex.padded 16 phys
  | evictedWhileMapping handle =>
    "GPU memory (handle=" ++ handle.text ++ ") evicted while being mapped"
  | regionNotFound handle => "P2P GPU memory (handle=" ++ handle.text ++ ") not found"
  | outsideRegion start stop handle length =>
    "range " ++ Hex.plain start ++ ".." ++ Hex.plain stop ++ " exceeds mapping " ++
      handle.text ++ " of " ++ Hex.plain length ++ " bytes"
  | teardownWaits handle => "handle=" ++ handle.text ++ " teardown waits for its users"
  | unpinFailed handle error =>
    "failed to unpin GPU memory (handle=" ++ handle.text ++ "): " ++ error.message
  | released handle cause =>
    "released GPU memory (handle=" ++ handle.text ++ ", cause=" ++ cause.name ++ ")"
  | evicted handle => "GPU memory (handle=" ++ handle.text ++ ") evicted by the driver"
  | evictionAfterRelease handle => "eviction of handle=" ++ handle.text ++ " after release"
  | refUnderflow handle => "refcount underflow on handle=" ++ handle.text
  | ineligible reason => "file not eligible for direct transfer: " ++ reason.message
  | unknownTag tag => "unknown chunk source tag " ++ Hex.padded 2 tag
  | noChunks => "empty chunk list"
  | badChunk index start length =>
    "chunk " ++ toString index ++ " has invalid range " ++ Hex.plain start ++ "+" ++
      Hex.plain length
  | noDescriptor => "file chunks without a file descriptor"
  | admitted task => "DMA task " ++ task.text ++ " admitted"
  | launchedAfterCleanup task => "DMA task " ++ task.text ++ " launched after cleanup"
  | noFile => "file chunk without a file descriptor"
  | shortPin pinned wanted address =>
    "pinned " ++ toString pinned ++ " of " ++ toString wanted ++ " host pages at " ++
      Hex.plain address
  | unresolved task error =>
    "DMA task " ++ task.text ++ " failed to resolve sources: " ++ error.message
  | resolved task extents length =>
    "DMA task " ++ task.text ++ " resolved " ++ toString extents ++ " units for " ++
      Hex.plain length ++ " bytes"
  | submitting task run =>
    "task " ++ task.text ++ " " ++ run.channel.name ++ " src=" ++ Hex.plain run.source ++
      " dst=" ++ Hex.plain run.target.raw ++ " len=" ++ Hex.plain run.length
  | outsideTable position =>
    "destination position " ++ Hex.plain position ++ " outside the page table"
  | stopped task error =>
    "DMA task " ++ task.text ++ " stopped submitting: " ++ error.message
  | unknownTask task => "cleanup of unknown DMA task " ++ task.text
  | completed task => "DMA task " ++ task.text ++ " completed"
  | wrongBlock number block =>
    "command " ++ Hex.plain number ++ " issued with a " ++ block.name ++ " block"
  | chunkCount declared carried =>
    "memcpy declares " ++ toString declared ++ " chunks but carries " ++ toString carried
  | commandFailed number error =>
    "command " ++ Hex.plain number ++ " failed: " ++ error.message
  | probed probe => probeText probe

/-- The line for an entry. -/
def line (e : Entry) : String := e.level.name ++ " strom: " ++ e.text

end Entry

end Log

/-- The entry for a fault in a list of chunks; a total that is too long has none. -/
def Chunk.Fault.entry? : Chunk.Fault → Option Log.Entry
  | .unknownTag tag => some (.unknownTag tag)
  | .noChunks => some .noChunks
  | .badRange index start length => some (.badChunk index start length)
  | .totalTooLong => none

/-- The entry for a range that is not in a region; one that is no range at all has none. -/
def Region.WindowFault.entry? (region : Region) : Region.WindowFault → Option Log.Entry
  | .overflow => none
  | .outside start stop => some (.outsideRegion start stop region.handle region.mappedLength)

end PeerDma
