import PeerDma.Error
import PeerDma.File

/-!
# Eligibility

Which files may take the direct path from an NVMe namespace to the device. `File.classify` tests
eight conditions in a fixed order and reports the first that fails:

1. the file is open for reading;
2. its filesystem has the magic number and the name of a supported one, and belongs to the module
   that is loaded for it;
3. it is at least as large as a host page;
4. its filesystem's block size is the host page size;
5. its device has the major number of NVMe namespaces;
6. its disk has the name of an NVMe namespace, `isNamespaceName`;
7. its device has an identify operation;
8. the identify operation succeeds.
-/

namespace PeerDma

/-- The major number of NVMe namespaces. -/
def extendedMajor : Nat := 259

/-- What follows a group of digits at the front, if there is one. -/
def afterDigits? : List Char → Option (List Char)
  | [] => none
  | c :: rest => if c.isDigit then some (rest.dropWhile Char.isDigit) else none

/-- What follows a given beginning, if the characters begin with it. -/
def afterText? : List Char → List Char → Option (List Char)
  | [], rest => some rest
  | _ :: _, [] => none
  | c :: more, d :: rest => if c = d then afterText? more rest else none

/-- Whether a disk is a whole NVMe namespace: nvme, digits, n, digits, and nothing else. -/
def isNamespaceName (name : String) : Bool :=
  let rest := do
    let rest ← afterText? ['n', 'v', 'm', 'e'] name.toList
    let rest ← afterDigits? rest
    let rest ← afterText? ['n'] rest
    afterDigits? rest
  rest == some []

/-- Whether an identity is that of a supported filesystem with the given loaded module. -/
def FilesystemIdentity.is (i : FilesystemIdentity) (kind : Filesystem)
    (loaded : Option ModuleId) : Bool :=
  i.magic == kind.magic && i.name == kind.name && i.owner.isSome && i.owner == loaded

/-- The filesystem of a file that may take the direct path, or the first condition that fails. -/
def File.classify (file : File) (pageSize : Nat) (provider : Filesystem → Option ModuleId) :
    Except Refusal Filesystem :=
  if !file.mode.canRead then .error .noReadPermission
  else
    match Filesystem.all.find? fun kind => file.identity.is kind (provider kind) with
    | none => .error .filesystemNotSupported
    | some kind =>
      if file.size < pageSize then .error (.fileTooSmall file.size)
      else if file.blockSize ≠ pageSize then .error (.blockSizeMismatch file.blockSize)
      else if file.device.major ≠ extendedMajor then
        .error (.notExtendedDevice file.device.major)
      else if !isNamespaceName file.device.name then .error .deviceNotNvme
      else
        match file.device.identify with
        | none => .error .noIdentifyOperation
        | some (.error code) => .error (.identifyFailed code)
        | some (.ok _) => .ok kind

end PeerDma
