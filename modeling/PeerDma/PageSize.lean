/-!
# Device page sizes

A device pins memory in pages of one of three sizes; page tables name the size by a code.
-/

namespace PeerDma

/-- The granularity of a device page table. -/
inductive PageSize where
  | size4K
  | size64K
  | size128K
  deriving DecidableEq, Repr

namespace PageSize

/-- The code that page tables carry. -/
def code : PageSize → Nat
  | size4K => 0
  | size64K => 1
  | size128K => 2

/-- Bytes in one page. -/
def bytes : PageSize → Nat
  | size4K => 4 * 1024
  | size64K => 64 * 1024
  | size128K => 128 * 1024

/-- The size that a code names. -/
def ofCode? : Nat → Option PageSize
  | 0 => some size4K
  | 1 => some size64K
  | 2 => some size128K
  | _ => none

/-- The size in units of 1024 bytes. -/
def text (s : PageSize) : String := toString (s.bytes / 1024) ++ "K"

theorem ofCode?_eq_some_iff {c : Nat} {s : PageSize} : ofCode? c = some s ↔ c = s.code := by
  constructor
  · intro h
    unfold ofCode? at h
    split at h <;> cases h <;> rfl
  · rintro rfl
    cases s <;> rfl

theorem bytes_pos (s : PageSize) : 0 < s.bytes := by cases s <;> decide

end PageSize

end PeerDma
