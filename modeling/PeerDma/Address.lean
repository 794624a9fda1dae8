import PeerDma.Word
import PeerDma.Hex

/-!
# Addresses

Three address spaces meet in a transfer, each with a type of its own:

* `GpuAddr`: a virtual address on the device, as the caller gives it;
* `PhysAddr`: a physical address on the device, from the table of a pinned range;
* `DmaAddr`: a bus address of a host page.
-/

namespace PeerDma

/-- A virtual address on the device. -/
structure GpuAddr where
  raw : Nat
  deriving DecidableEq, Repr

/-- A physical address on the device. -/
structure PhysAddr where
  raw : Nat
  deriving DecidableEq, Repr

/-- A bus address of a host page. -/
structure DmaAddr where
  raw : Nat
  deriving DecidableEq, Repr

namespace GpuAddr

/-- The address with its bits below `align` cleared. -/
def alignDown (a : GpuAddr) (align : Nat) : GpuAddr := ⟨Word.alignDown a.raw align⟩

/-- The bits of the address below `align`. -/
def offsetWithin (a : GpuAddr) (align : Nat) : Nat := Word.lowBits a.raw align

/-- The address `bytes` further on; address arithmetic wraps. -/
def offset (a : GpuAddr) (bytes : Nat) : GpuAddr := ⟨Word.addWrap a.raw bytes⟩

/-- The address as messages write it: `0x` and at least fourteen digits. -/
def text (a : GpuAddr) : String := Hex.padded 14 a.raw

/-- The address with its space and all sixteen digits. -/
def describe (a : GpuAddr) : String := "GpuAddr(" ++ Hex.padded 16 a.raw ++ ")"

end GpuAddr

namespace PhysAddr

/-- The address `bytes` further on; address arithmetic wraps. -/
def offset (a : PhysAddr) (bytes : Nat) : PhysAddr := ⟨Word.addWrap a.raw bytes⟩

/-- The address as messages write it: `0x` and at least fourteen digits. -/
def text (a : PhysAddr) : String := Hex.padded 14 a.raw

/-- The address with its space and all sixteen digits. -/
def describe (a : PhysAddr) : String := "PhysAddr(" ++ Hex.padded 16 a.raw ++ ")"

end PhysAddr

namespace DmaAddr

/-- The address with its space and all sixteen digits. -/
def describe (a : DmaAddr) : String := "DmaAddr(" ++ Hex.padded 16 a.raw ++ ")"

end DmaAddr

end PeerDma
