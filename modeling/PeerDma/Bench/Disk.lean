import PeerDma.Platform
import PeerDma.Table

/-!
# Files for experiments

Open files with pages in the page cache, and a block mapper. Page `i` of a file lies on block
`0x1000 + i`; page `i` in the cache has the bus address `0xC000_0000_0000 + i * 4096`. The mapper's
answers can be scripted.
-/

namespace PeerDma

namespace Bench

/-- The module that is loaded for a filesystem. -/
def moduleOf : Filesystem → ModuleId
  | .ext4 => ⟨0xE4⟩
  | .xfs => ⟨0x5F5⟩

/-- The identity of a file on a filesystem. -/
def identityOf (kind : Filesystem) : FilesystemIdentity :=
  ⟨kind.magic, kind.name, some (moduleOf kind)⟩

/-- A healthy NVMe namespace. -/
def namespaceDevice : BlockDevice := ⟨extendedMajor, "nvme0n1", some (.ok 1)⟩

/-- A file that may be copied from. -/
def plainFile (kind : Filesystem) (size : Nat) : File where
  mode := ⟨1⟩
  identity := identityOf kind
  size := size
  blockSize := 4096
  device := namespaceDevice

/-- A file with its pages in the page cache. -/
structure OpenFile where
  file : File
  resident : List Nat := []

/-- Where page `index` of a file is in the page cache. -/
def cacheDma (index : Nat) : Nat := 0xC00000000000 + index * 4096

/-- Descriptors and blocks. -/
structure Disk where
  files : Table Int OpenFile := .empty
  /-- Filesystems whose module is not loaded. -/
  unloaded : List Filesystem := []
  /-- A module reported for both filesystems. -/
  provider : Option ModuleId := none
  /-- A page whose look-up fails. -/
  failAt : Option Nat := none
  /-- Scripted answers by page. -/
  answers : Table Nat (Except Error Nat) := .empty

namespace Disk

/-- Opens a file at a descriptor, in place of what was there. -/
def install (d : Disk) (descriptor : Int) (file : OpenFile) : Disk :=
  { d with
    files := d.files.insert descriptor { file with file := { file.file with descriptor } } }

/-- The file behind a descriptor. -/
def openFile (d : Disk) (descriptor : Int) : Except Error File :=
  match d.files.find? descriptor with
  | none => .error .badDescriptor
  | some f => .ok f.file

/-- The module that is loaded for a filesystem. -/
def loaded (d : Disk) (kind : Filesystem) : Option ModuleId :=
  match d.provider with
  | some id => some id
  | none => if kind ∈ d.unloaded then none else some (moduleOf kind)

/-- A page of a file, if it is in the page cache. -/
def cachedPage (d : Disk) (file : File) (index : Nat) : Option HostPage :=
  match d.files.find? file.descriptor with
  | none => none
  | some f => if index ∈ f.resident then some ⟨⟨cacheDma index⟩⟩ else none

/-- The block of page `index` of every file. -/
def blockOf (index : Nat) : Nat := 0x1000 + index

/-- The answer to a block look-up. -/
def resolveBlock (d : Disk) (index : Nat) : Except Error Nat :=
  match d.answers.find? index with
  | some answer => answer
  | none => if d.failAt = some index then .error (.driverError (-5)) else .ok (blockOf index)

end Disk

end Bench

end PeerDma
