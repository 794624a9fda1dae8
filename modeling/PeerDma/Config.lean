import PeerDma.Word

/-!
# Configuration

The tunables of an instance, and the check that an instance makes before it starts:
`Config.check` names the first unusable value.
-/

namespace PeerDma

/-- The tunables of an instance. -/
structure Config where
  /-- Shards of the table of regions. -/
  mappingShards : Nat := 48
  /-- Shards of the table of tasks. -/
  taskShards : Nat := 100
  /-- Device addresses are rounded down to `2 ^ boundShift` before pinning. -/
  boundShift : Nat := 16
  /-- Bytes in a host page, and in a block of a file that may be copied from. -/
  hostPageSize : Nat := 4096
  deriving DecidableEq, Repr

namespace Config

/-- An unusable value. -/
inductive Fault where
  | zeroShards
  | boundShiftOutOfRange (shift : Nat)
  | hostPageNotPowerOfTwo (size : Nat)
  deriving DecidableEq, Repr

/-- The fault in words. -/
def Fault.message : Fault → String
  | zeroShards => "shard counts must be non-zero"
  | boundShiftOutOfRange shift => "gpu_bound_shift " ++ toString shift ++ " out of range"
  | hostPageNotPowerOfTwo size =>
    "host page size " ++ toString size ++ " is not a power of two"

/-- The alignment of pinned ranges in bytes. -/
def boundSize (c : Config) : Nat := 1 <<< c.boundShift

/-- The first fault, if there is one. -/
def check (c : Config) : Except Fault Unit :=
  if c.mappingShards = 0 ∨ c.taskShards = 0 then .error .zeroShards
  else if c.boundShift < 12 ∨ 30 < c.boundShift then .error (.boundShiftOutOfRange c.boundShift)
  else if Word.isPowerOfTwo c.hostPageSize then .ok ()
  else .error (.hostPageNotPowerOfTwo c.hostPageSize)

end Config

end PeerDma
