/-!
# Extents

An extent is a stretch of source bytes that one of the two channels can read: host pages over
the memory channel, disk blocks over the storage channel.
-/

namespace PeerDma

/-- The two ways into device memory. -/
inductive Channel where
  /-- Reads host pages by bus address. -/
  | memory
  /-- Reads the disk by byte address. -/
  | storage
  deriving DecidableEq, Repr

/-- The channel's name in messages. -/
def Channel.name : Channel → String
  | memory => "Memory"
  | storage => "Storage"

/-- A stretch of source bytes, no longer than a host page when it comes from a chunk. -/
structure Extent where
  channel : Channel
  /-- Where the channel finds the first byte. -/
  source : Nat
  length : Nat
  deriving DecidableEq, Repr

/-- The bytes of an extent: which channel reads each, and where. -/
def Extent.bytes (e : Extent) : List (Channel × Nat) :=
  (List.range' e.source e.length).map (Prod.mk e.channel)

end PeerDma
