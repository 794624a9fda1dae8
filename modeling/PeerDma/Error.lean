/-!
# Errors

`Error` lists the causes for which an operation fails, `Refusal` the conditions for which a file
cannot take the direct path. Each cause has a message (`Error.message`, `Refusal.message`) and a
status code (`Error.errno`).
-/

namespace PeerDma

/-- The first condition that keeps a file off the direct path. -/
inductive Refusal where
  /-- It is not open for reading. -/
  | noReadPermission
  /-- Its filesystem is not one of the supported ones. -/
  | filesystemNotSupported
  /-- It is smaller than a host page. -/
  | fileTooSmall (size : Nat)
  /-- Its filesystem's block size is not the host page size. -/
  | blockSizeMismatch (blockSize : Nat)
  /-- Its device's major number is not the one of NVMe namespaces. -/
  | notExtendedDevice (major : Nat)
  /-- Its disk's name is not that of an NVMe namespace. -/
  | deviceNotNvme
  /-- Its device has no identify operation. -/
  | noIdentifyOperation
  /-- Its device's identify operation failed. -/
  | identifyFailed (code : Int)
  deriving DecidableEq, Repr

/-- Why an operation failed. -/
inductive Error where
  /-- A host address cannot be pinned or resolved. -/
  | badAddress
  /-- There is no open file behind a descriptor. -/
  | badDescriptor
  /-- No such region or task is registered. -/
  | notFound
  /-- The file cannot take the direct path. -/
  | unsupported (reason : Refusal)
  /-- Memory ran out. -/
  | outOfMemory
  /-- The request makes no sense. -/
  | invalidArgument
  /-- The surroundings failed with a code of their own. -/
  | driverError (code : Int)
  /-- Something is still in use. -/
  | busy
  /-- There is no instance. -/
  | notInitialized
  deriving DecidableEq, Repr

/-- The condition in words. -/
def Refusal.message : Refusal → String
  | noReadPermission => "file is not readable"
  | filesystemNotSupported => "filesystem is neither ext4 nor xfs"
  | fileTooSmall size => "file size too small (" ++ toString size ++ " bytes)"
  | blockSizeMismatch blockSize =>
    "block size (" ++ toString blockSize ++ ") does not match host page size"
  | notExtendedDevice major =>
    "block device major " ++ toString major ++ " is not an NVMe namespace"
  | deviceNotNvme => "block device is not a plain NVMe namespace"
  | noIdentifyOperation => "block device has no identify operation"
  | identifyFailed code => "identify failed (" ++ toString code ++ ")"

namespace Error

/-- The error in words. -/
def message : Error → String
  | badAddress => "bad address"
  | badDescriptor => "bad file descriptor"
  | notFound => "no such handle or task"
  | unsupported reason => "unsupported: " ++ reason.message
  | outOfMemory => "out of memory"
  | invalidArgument => "invalid argument"
  | driverError code => "driver error " ++ toString code
  | busy => "resource busy"
  | notInitialized => "not initialized"

/-- The status code: a negative number, but for a foreign code of zero. -/
def errno : Error → Int
  | badAddress => -14
  | badDescriptor => -9
  | notFound => -2
  | unsupported .noReadPermission => -13
  | unsupported _ => -524
  | outOfMemory => -12
  | invalidArgument => -22
  | driverError code => if code < 0 then code else -code
  | busy => -16
  | notInitialized => -19

/-- Whether the cause lies in the surroundings. -/
def isDriverError : Error → Bool
  | driverError _ => true
  | _ => false

/-- Only a foreign code of zero has the status code of success. -/
theorem errno_eq_zero_iff (e : Error) : e.errno = 0 ↔ e = driverError 0 := by
  constructor
  · intro h
    unfold errno at h
    split at h <;> first | contradiction | skip
    split at h
    · omega
    · simp_all
  · rintro rfl
    rfl

end Error

end PeerDma
