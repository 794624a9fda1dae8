/-!
# Source files

What a copy needs to know of an open file: how it was opened, which filesystem it is on, its
size, and the block device below.
-/

namespace PeerDma

/-- Names a loaded driver module. -/
structure ModuleId where
  id : Nat
  deriving DecidableEq, Repr

/-- The filesystems whose block maps can be trusted. -/
inductive Filesystem where
  | ext4
  | xfs
  deriving DecidableEq, Repr

namespace Filesystem

/-- The number that marks the filesystem on disk. -/
def magic : Filesystem → Nat
  | ext4 => 0xEF53
  | xfs => 0x58465342

/-- The name under which the filesystem is registered. -/
def name : Filesystem → String
  | ext4 => "ext4"
  | xfs => "xfs"

/-- All of them, in the order in which they are tried. -/
def all : List Filesystem := [ext4, xfs]

end Filesystem

/-- How a file was opened, as a set of bits. -/
structure FileMode where
  bits : Nat
  deriving DecidableEq, Repr

/-- The lowest bit stands for reading. -/
def FileMode.canRead (m : FileMode) : Bool := m.bits.testBit 0

/-- The filesystem that a file claims to be on. -/
structure FilesystemIdentity where
  magic : Nat
  name : String
  /-- The module that the filesystem belongs to. -/
  owner : Option ModuleId
  deriving DecidableEq, Repr

/-- The block device below a file. -/
structure BlockDevice where
  major : Nat
  name : String
  /-- What the identify operation answers: a namespace number or an error code; nothing if the
  device has no such operation. -/
  identify : Option (Except Int Nat)

/-- An open file. -/
structure File where
  /-- The descriptor it was opened at. -/
  descriptor : Int := 0
  mode : FileMode
  identity : FilesystemIdentity
  /-- Bytes. -/
  size : Nat
  /-- Bytes in a block of its filesystem. -/
  blockSize : Nat
  device : BlockDevice

end PeerDma
