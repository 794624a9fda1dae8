/-!
# Command codes

Callers choose a command by a number. The eight numbers are consecutive.
-/

namespace PeerDma

/-- The commands. -/
inductive CommandCode where
  | checkFile
  | map
  | unmap
  | info
  | copy
  | copyAsync
  | wait
  | debug
  deriving DecidableEq, Repr

namespace CommandCode

/-- All commands, by number. -/
def all : List CommandCode := [checkFile, map, unmap, info, copy, copyAsync, wait, debug]

/-- The command's number. -/
def number : CommandCode → Nat
  | checkFile => 0x80
  | map => 0x81
  | unmap => 0x82
  | info => 0x83
  | copy => 0x84
  | copyAsync => 0x85
  | wait => 0x86
  | debug => 0x87

/-- The command's name in messages. -/
def name : CommandCode → String
  | checkFile => "CheckFile"
  | map => "MapGpuMemory"
  | unmap => "UnmapGpuMemory"
  | info => "InfoGpuMemory"
  | copy => "MemcpySsdToGpu"
  | copyAsync => "MemcpySsdToGpuAsync"
  | wait => "MemcpySsdToGpuWait"
  | debug => "Debug"

/-- The command with a number. -/
def ofNumber? (n : Nat) : Option CommandCode := all.find? (·.number == n)

theorem ofNumber?_eq_some_iff {n : Nat} {c : CommandCode} :
    ofNumber? n = some c ↔ c.number = n := by
  constructor
  · intro h
    simpa using List.find?_some h
  · rintro rfl
    cases c <;> rfl

end CommandCode

end PeerDma
