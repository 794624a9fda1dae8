import PeerDma.Platform

/-!
# A pager for experiments

Pins any range. Page `i` of a pin is at `physBase + i * physStride`; the answers can be scripted:
the next pin can fail, be revoked at once or hand out another table, and the next unpin can report
an error.
-/

namespace PeerDma

namespace Bench

/-- Whose pin a notice revokes. Instances that share a bench are told apart by a number. -/
structure Notice where
  inst : Nat
  handle : Handle
  deriving DecidableEq, Repr

/-- Changes to the next page table. -/
structure TableScript where
  version : Option Nat := none
  code : Option Nat := none
  pages : Option (List PhysAddr) := none
  deriving DecidableEq, Repr

/-- The table with the changes. -/
def TableScript.apply (s : TableScript) (table : PageTable) : PageTable where
  version := s.version.getD table.version
  code := s.code.getD table.code
  pages := s.pages.getD table.pages

/-- A scripted pager. -/
structure Pager where
  /-- The page-size code in its tables. -/
  code : Nat := 1
  physBase : Nat := 0x4000000000
  physStride : Nat := 0x20000
  failNext : Option Error := none
  revokeNext : Bool := false
  script : Option TableScript := none
  failUnpin : Option Error := none
  /-- The notices that have not fired, by the base of their pin. -/
  notices : List (GpuAddr × Notice) := []
  deriving DecidableEq, Repr

namespace Pager

/-- A pager with a page-size code. Codes without a size get pages of 64 KiB. -/
def ofCode (code : Nat) : Pager :=
  { code, physStride := ((PageSize.ofCode? code).getD .size64K).bytes * 2 }

/-- Bytes in a page. -/
def pageBytes (g : Pager) : Nat := ((PageSize.ofCode? g.code).getD .size64K).bytes

/-- Where page `index` of a pin is. -/
def physOf (g : Pager) (index : Nat) : PhysAddr := ⟨g.physBase + index * g.physStride⟩

/-- The table for a range; one with scripted pages is cut to a single page before. -/
def tableFor (g : Pager) (script : TableScript) (length : Nat) : PageTable :=
  let count := Word.ceilDiv (if script.pages.isSome then 1 else length) g.pageBytes
  script.apply ⟨0x10000, g.code, (List.range count).map g.physOf⟩

/-- Pins a range. A failure comes first and leaves a scripted revocation for later. -/
def pin (g : Pager) (notice : Notice) (base : GpuAddr) (length : Nat) :
    Except Error PinGrant × Pager :=
  let script := g.script.getD {}
  let g := { g with script := none }
  match g.failNext with
  | some e => (.error e, { g with failNext := none })
  | none =>
    let table := g.tableFor script length
    if g.revokeNext then (.ok ⟨table, true⟩, { g with revokeNext := false })
    else (.ok ⟨table, false⟩, { g with notices := g.notices ++ [(base, notice)] })

/-- The first notice for a base, and the pager without it. -/
def takeNotice (g : Pager) (base : GpuAddr) : Option Notice × Pager :=
  ((g.notices.find? (·.1 = base)).map Prod.snd,
    { g with notices := g.notices.eraseP (·.1 = base) })

/-- Takes a pin back, and the first notice for its base with it. -/
def unpin (g : Pager) (base : GpuAddr) : Except Error Unit × Pager :=
  let (_, g) := g.takeNotice base
  match g.failUnpin with
  | some e => (.error e, { g with failUnpin := none })
  | none => (.ok (), g)

end Pager

end Bench

end PeerDma
