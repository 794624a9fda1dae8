import PeerDma.Core

/-!
# Status

What an instance shows of itself: a snapshot of its registered regions in the order of their
handles, the same as text, and a one-line description.
-/

namespace PeerDma

/-- A registered region at the time of a snapshot. -/
structure RegionStatus where
  handle : Handle
  owner : Pid
  refs : Nat
  base : GpuAddr
  offset : Nat
  length : Nat
  version : Nat
  pageSize : PageSize
  pages : List PhysAddr
  deriving DecidableEq, Repr

/-- What a snapshot shows of a region. -/
def RegionUse.status (u : RegionUse) : RegionStatus where
  handle := u.region.handle
  owner := u.region.owner
  refs := u.refs
  base := u.region.base
  offset := u.region.offset
  length := u.region.length
  version := u.region.table.version
  pageSize := u.region.pageSize
  pages := u.region.pages

/-- The registered regions, in the order of their handles. -/
def Mappings.snapshot (m : Mappings) : List RegionStatus :=
  (m.table.values.map RegionUse.status).mergeSort fun a b => a.handle.id ≤ b.handle.id

namespace RegionStatus

/-- The lines for the pages of a region. -/
def pageLines (s : RegionStatus) : List String :=
  s.pages.zipIdx.map fun (page, i) =>
    "PTE: V:" ++ Hex.plain (s.base.offset (s.pageSize.bytes * i)).raw ++ " <--> P:" ++
      Hex.plain page.raw

/-- The lines for a region, with an empty one at the end. -/
def lines (s : RegionStatus) : List String :=
  ["handle: " ++ s.handle.text,
   "owner: " ++ s.owner.text,
   "refcnt: " ++ toString s.refs,
   "version: " ++ toString s.version,
   "page_size: " ++ toString s.pageSize.bytes,
   "entries: " ++ toString s.pages.length] ++ s.pageLines ++ [""]

end RegionStatus

/-- The line above all regions. -/
def statusHeadline : String := "# Strom Mapped GPU Memory"

/-- A snapshot as text. -/
def renderStatus (regions : List RegionStatus) : String :=
  String.join ((statusHeadline :: regions.flatMap RegionStatus.lines).map (· ++ "\n"))

/-! ## Descriptions -/

/-- A record with a name and named values. -/
def describeRecord (name : String) (fields : List (String × String)) : String :=
  name ++ " \x7b " ++ ", ".intercalate (fields.map fun (key, value) => key ++ ": " ++ value) ++
    " \x7d"

/-- A record that does not show all of its values. -/
def describeOpenRecord (name : String) (fields : List (String × String)) : String :=
  name ++ " \x7b " ++
    ", ".intercalate (fields.map (fun (key, value) => key ++ ": " ++ value) ++ [".."]) ++ " \x7d"

/-- A configuration with its values. -/
def Config.describe (c : Config) : String :=
  describeRecord "StromConfig"
    [("mapping_shards", toString c.mappingShards), ("task_shards", toString c.taskShards),
     ("gpu_bound_shift", toString c.boundShift), ("host_page_size", toString c.hostPageSize)]

/-- The counts of regions. -/
def MappingStats.describe (s : MappingStats) : String :=
  describeRecord "RegistryStats"
    [("total_mapped", toString s.mapped), ("total_released", toString s.released),
     ("evictions", toString s.evicted)]

/-- The counts of requests. -/
def TaskStats.describe (s : TaskStats) : String :=
  describeRecord "TaskStats" [("admitted", toString s.admitted), ("rejected", toString s.rejected)]

/-- The regions in one line. -/
def Mappings.describe (m : Mappings) : String :=
  describeRecord "MappingRegistry"
    [("table", m.table.describe), ("bound", toString m.bound), ("stats", m.stats.describe)]

/-- The tasks in one line. -/
def Tasks.describe (t : Tasks) (pageSize : Nat) : String :=
  describeOpenRecord "TaskRegistry"
    [("tasks", describeRecord "TaskTable" [("table", t.table.describe)]),
     ("engine", describeOpenRecord "CopyEngine" [("page_size", toString pageSize)]),
     ("stats", t.stats.describe)]

namespace Core

/-- The instance as text, region by region. -/
def statusText (c : Core) : String := renderStatus c.mappings.snapshot

/-- The instance in one line. -/
def describe (c : Core) : String :=
  describeRecord "Strom"
    [("config", c.config.describe), ("mappings", c.mappings.describe),
     ("tasks", c.tasks.describe c.config.hostPageSize)]

end Core

end PeerDma
