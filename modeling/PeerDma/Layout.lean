import PeerDma.Address

/-!
# Destination layouts

The table of a pinned range gives one physical address per device page. Positions in the range
count bytes from its rounded-down base.
-/

namespace PeerDma

/-- The pages of a pinned range, in virtual order. -/
structure Layout where
  pageSize : Nat
  pages : Array PhysAddr
  deriving DecidableEq, Repr

namespace Layout

/-- Bytes that the table covers. -/
def size (l : Layout) : Nat := l.pages.size * l.pageSize

/-- The physical address of a position, if the table covers it. -/
def physAt? (l : Layout) (position : Nat) : Option PhysAddr :=
  l.pages[position / l.pageSize]?.map (·.offset (position % l.pageSize))

/-- The first page boundary after a position. -/
def boundaryAfter (l : Layout) (position : Nat) : Nat :=
  (position / l.pageSize + 1) * l.pageSize

theorem physAt?_isSome_iff {l : Layout} {position : Nat} (h : 0 < l.pageSize) :
    (l.physAt? position).isSome ↔ position < l.size := by
  simp [physAt?, size, Nat.div_lt_iff_lt_mul h]

end Layout

end PeerDma
