import PeerDma.World.Basic

/-!
# Regions in use

Pinning and unpinning device memory, and counting who uses it.

* `map` pins a range and registers it as a region.
* `acquire` and `put` take and give back a reference; `info` reads a page table under one.
* `teardown` takes a region out of the table and unpins it, after its last user if it has any.
* `evict` is what the eviction notice of a pin does when it fires.
* `wake` lets a parked call, and through it every call displaced by it, come back.
-/

namespace PeerDma

/-- What the caller of a map learns. -/
structure Mapping where
  handle : Handle
  pageSize : PageSize
  entries : Nat
  deriving DecidableEq, Repr

/-- A region as a mapping. -/
def Region.mapping (r : Region) : Mapping := ⟨r.handle, r.pageSize, r.pages.length⟩

/-- A copy of a region's page table. -/
structure RegionInfo where
  handle : Handle
  version : Nat
  pageSize : PageSize
  /-- The length of the whole table. -/
  entries : Nat
  /-- As many pages as asked for, or all. -/
  physical : List PhysAddr
  deriving DecidableEq, Repr

/-- The first `capacity` pages of a region with what describes them. -/
def Region.info (r : Region) (capacity : Nat) : RegionInfo :=
  ⟨r.handle, r.table.version, r.pageSize, r.pages.length, r.pages.take capacity⟩

namespace World

variable {ε : Type} (p : Platform ε)

/-! ## The end of a region -/

/-- Unpins a region that is out of the table. -/
def unpinRegion (region : Region) (cause : Cause) (w : World ε) : World ε :=
  let (answer, ambient) := w.ambient.unpin p region.handle region.base region.table cause
  let w := { w with ambient }
  let w :=
    match answer with
    | .ok () => w
    | .error e => w.log (.unpinFailed region.handle e)
  (w.setMappings (w.core.mappings.forget region.handle)).log (.released region.handle cause)

/-- Unpins a region that the device has taken back. -/
def unpinEvicted (region : Region) (w : World ε) : World ε :=
  let w := w.unpinRegion p region .evicted
  (w.setMappings w.core.mappings.countEvicted).log (.evicted region.handle)

/-- Does what is left of a parked call. -/
def resume (s : Sleeper) (w : World ε) : World ε :=
  let w :=
    match s.rest with
    | .teardown region cause => w.unpinRegion p region cause
    | .eviction region => w.unpinEvicted p region
    | .wait => w
    | .copy _ => w
  w.note (.resumed s.waiter s.rest.reply)

/-- Lets the call parked under a waiter come back, and those that it displaced. -/
def wake (waiter : Waiter) (w : World ε) : World ε :=
  let (roused, sleepers) := rouse waiter w.core.parking.sleepers
  let w := w.setParking { w.core.parking with sleepers }
  roused.foldl (fun w s => w.resume p s) w

/-- Wakes somebody, if there is somebody. -/
def wake? (waiter : Option Waiter) (w : World ε) : World ε :=
  match waiter with
  | none => w
  | some waiter => w.wake p waiter

/-- Gives a reference back. -/
def put (handle : Handle) (w : World ε) : World ε :=
  match w.core.mappings.put? handle with
  | none => w.log (.refUnderflow handle)
  | some (woken, mappings) => (w.setMappings mappings).wake? p woken

/-- Takes a region out of the table. It is unpinned by `now` at once if nobody uses it; else the
call is parked and `later` is left to do. -/
def detach (handle : Handle) (now : Region → World ε → World ε) (later : Region → Rest)
    (w : World ε) : Outcome (Except Error Unit) × World ε :=
  match w.core.mappings.detach? handle with
  | none => (.returned (.error .notFound), w)
  | some (use, mappings) =>
    let w := w.setMappings mappings
    if use.refs = 0 then (.returned (.ok ()), now use.region w)
    else
      let (waiter, parking) := w.core.parking.fresh
      let (slot, displaced) := use.slot.install waiter
      let w := w.setMappings (w.core.mappings.drain { use with slot })
      let w := w.setParking (parking.park ⟨waiter, displaced, later use.region⟩)
      (.parked waiter, w.log (.teardownWaits handle))

/-- Removes a region and unpins it once its last user is gone. -/
def teardown (handle : Handle) (cause : Cause) (w : World ε) :
    Outcome (Except Error Unit) × World ε :=
  match w.detach handle (fun region w => w.unpinRegion p region cause) (.teardown · cause) with
  | (.returned (.error e), w) => (.returned (.error e), w.log (.regionNotFound handle))
  | answer => answer

/-- Fires the eviction notice of a pin. A map in progress learns of it; a registered region is torn
down; anything else has been given back already. -/
def evict (handle : Handle) (w : World ε) : Outcome Unit × World ε :=
  match w.core.mappings.revoke? handle with
  | some mappings => (.returned (), w.setMappings mappings)
  | none =>
    match w.detach handle (fun region w => w.unpinEvicted p region) .eviction with
    | (.returned (.error _), w) => (.returned (), w.log (.evictionAfterRelease handle))
    | (.returned (.ok ()), w) => (.returned (), w)
    | (.parked waiter, w) => (.parked waiter, w)

/-! ## A new region -/

/-- Hands back the pin of a map that fails. -/
def rollBack (handle : Handle) (base : GpuAddr) (table : PageTable) (cause : Cause)
    (w : World ε) : World ε :=
  let (answer, ambient) := w.ambient.unpin p handle base table cause
  let w := { w with ambient }
  match answer with
  | .ok () => w
  | .error e => w.log (.rollbackFailed base e)

/-- Ends a map in progress; the answer is whether the device has taken its range back. -/
def finishMap (handle : Handle) (w : World ε) : Bool × World ε :=
  let (revoked, mappings) := w.core.mappings.finish handle
  (revoked, w.setMappings mappings)

/-- Pins the range of a map in progress. The eviction notice may fire meanwhile. -/
def pinMap (handle : Handle) (base : GpuAddr) (length : Nat) (w : World ε) :
    Except Error PageTable × World ε :=
  let (answer, ambient) := w.ambient.pin p handle base length
  let w := { w with ambient }
  match answer with
  | .error e => (.error e, w)
  | .ok grant => (.ok grant.table, if grant.revoked then (w.evict p handle).2 else w)

/-- Writes a new region and its page table to the log. -/
def logRegion (region : Region) (w : World ε) : World ε :=
  region.pages.zipIdx.foldl
    (fun w (page, i) =>
      w.log (.pageMapped (region.base.raw + i * region.pageSize.bytes) page.raw))
    (w.log (.mapped region))

/-- Registers a region, unless the device has taken its range back meanwhile. -/
def enter (region : Region) (w : World ε) : Except Error Mapping × World ε :=
  match (w.logRegion region).finishMap region.handle with
  | (true, w) =>
    let w := w.log (.evictedWhileMapping region.handle)
    let w := w.rollBack p region.handle region.base region.table .evicted
    (.error .badAddress, w.setMappings w.core.mappings.countEvicted)
  | (false, w) =>
    (.ok region.mapping, w.setMappings (w.core.mappings.register region).countMapped)

/-- Ends a map whose page table is of no use. -/
def refuseTable (handle : Handle) (base : GpuAddr) (table : PageTable) (entry : Log.Entry)
    (w : World ε) : Except Error Mapping × World ε :=
  (.error .invalidArgument, ((w.log entry).finishMap handle).2.rollBack p handle base table .unmap)

/-- Pins `length` bytes of device memory at an address and registers them for `owner`. -/
def map (owner : Pid) (address : GpuAddr) (length : Nat) (w : World ε) :
    Except Error Mapping × World ε :=
  if length = 0 ∨ Word.bound ≤ address.raw + length then
    (.error .invalidArgument, w.log (.badMapping address length))
  else
    let base := address.alignDown w.core.mappings.bound
    let offset := address.offsetWithin w.core.mappings.bound
    let (handle, mappings) := w.core.mappings.begin
    match (w.setMappings mappings).pinMap p handle base (offset + length) with
    | (.error e, w) =>
      (.error e, (w.finishMap handle).2.log (.pinFailed base (offset + length) e))
    | (.ok table, w) =>
      match PageSize.ofCode? table.code with
      | none => w.refuseTable p handle base table (.unknownPageSize table.code)
      | some pageSize =>
        if Word.mulSat table.pages.length pageSize.bytes < offset + length then
          w.refuseTable p handle base table (.shortTable table.pages.length (offset + length))
        else w.enter p ⟨handle, owner, base, offset, length, pageSize, table⟩

/-! ## References -/

/-- Takes a reference to a registered region. -/
def acquire (handle : Handle) (w : World ε) : Except Error RegionUse × World ε :=
  match w.core.mappings.acquire? handle with
  | none => (.error .notFound, w.log (.regionNotFound handle))
  | some (use, mappings) => (.ok use, w.setMappings mappings)

/-- The position `offset` bytes past the caller's address, if `length` bytes from there lie in the
region. -/
def window (region : Region) (offset length : Nat) (w : World ε) : Except Error Nat × World ε :=
  match region.window offset length with
  | .ok start => (.ok start, w)
  | .error fault => (.error .invalidArgument, w.log? (fault.entry? region))

/-- Copies out the first `capacity` entries of a region's page table. -/
def info (handle : Handle) (capacity : Nat) (w : World ε) : Except Error RegionInfo × World ε :=
  match w.acquire handle with
  | (.error e, w) => (.error e, w)
  | (.ok use, w) => (.ok (use.region.info capacity), w.put p handle)

end World

end PeerDma
