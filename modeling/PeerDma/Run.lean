import PeerDma.Error
import PeerDma.Extent
import PeerDma.Layout
import PeerDma.Span

/-!
# Runs

A run is one submission to a channel: contiguous in the source, and inside one device page.
`Cursor` turns a stream of extents into runs. It merges an extent that continues the pending run,
and hands the pending run to its sink

* before an extent that does not continue it,
* when the destination reaches a page boundary,
* at the end of the stream.

The sink may refuse a run, and a position may lie outside the layout; either stops the push
(`Stop`), with nothing pending afterwards. `planRuns` collects the runs of a list of extents.
-/

namespace PeerDma

/-- One submission. -/
structure Run where
  channel : Channel
  /-- Where the channel finds the first byte. -/
  source : Nat
  /-- Where the first byte goes. -/
  target : PhysAddr
  /-- The position of `target` in the destination range. -/
  position : Nat
  length : Nat
  deriving DecidableEq, Repr

/-- Whether bytes at `source` on `channel` follow the run's own. -/
def Run.continuesAt (r : Run) (channel : Channel) (source : Nat) : Bool :=
  r.channel == channel && r.source + r.length == source

/-- Why a cursor stopped. -/
inductive Stop (ρ : Type) where
  /-- The sink refused a run. -/
  | refused (reason : ρ)
  /-- The position is outside the layout. -/
  | outside (position : Nat)
  deriving DecidableEq, Repr

/-- The error that a stop is reported as. -/
def Stop.error {ρ : Type} (ofReason : ρ → Error) : Stop ρ → Error
  | refused reason => ofReason reason
  | outside _ => .invalidArgument

/-- Takes a run and says whether it refuses it. -/
abbrev Sink (ρ σ : Type) := Run → σ → Except ρ Unit × σ

/-- A stream of runs under construction. -/
structure Cursor where
  layout : Layout
  /-- Where the next byte goes. -/
  position : Nat
  /-- The run that later extents may still continue. -/
  pending : Option Run := none
  deriving DecidableEq, Repr

namespace Cursor

variable {ρ σ : Type} (sink : Sink ρ σ)

/-- Hands the pending run over. -/
def flush (c : Cursor) (s : σ) : Except (Stop ρ) Unit × Cursor × σ :=
  match c.pending with
  | none => (.ok (), c, s)
  | some run =>
    let (answer, s) := sink run s
    (answer.mapError .refused, { c with pending := none }, s)

/-- Hands the pending run over, unless bytes at `source` on `channel` continue it. -/
def cutBefore (channel : Channel) (source : Nat) (c : Cursor) (s : σ) :
    Except (Stop ρ) Unit × Cursor × σ :=
  match c.pending with
  | none => (.ok (), c, s)
  | some run => if run.continuesAt channel source then (.ok (), c, s) else c.flush sink s

/-- Puts `length` bytes at the position: onto the pending run, or as a new one. -/
def place (channel : Channel) (source length : Nat) (c : Cursor) : Except (Stop ρ) Cursor :=
  let position := c.position + length
  match c.pending with
  | some run => .ok { c with position, pending := some { run with length := run.length + length } }
  | none =>
    match c.layout.physAt? c.position with
    | none => .error (.outside c.position)
    | some target =>
      .ok { c with position, pending := some ⟨channel, source, target, c.position, length⟩ }

/-- Hands the pending run over if the position is a page boundary. -/
def cutAtBoundary (c : Cursor) (s : σ) : Except (Stop ρ) Unit × Cursor × σ :=
  if c.position % c.layout.pageSize = 0 then c.flush sink s else (.ok (), c, s)

/-- Takes `length` bytes that stay inside the destination page of the position. -/
def advance (channel : Channel) (source length : Nat) (c : Cursor) (s : σ) :
    Except (Stop ρ) Unit × Cursor × σ :=
  match c.cutBefore sink channel source s with
  | (.error stop, c, s) => (.error stop, c, s)
  | (.ok (), c, s) =>
    match c.place channel source length with
    | .error stop => (.error stop, c, s)
    | .ok c => c.cutAtBoundary sink s

/-- Takes `length` bytes from `source` on, page by page of the destination, until a page stops the
cursor. -/
def advanceAll (channel : Channel) (source length : Nat) (c : Cursor) (s : σ) :
    Except (Stop ρ) Unit × Cursor × σ :=
  if h : c.layout.pageSize = 0 ∨ length = 0 then (.ok (), c, s)
  else
    let size := (Span.first c.layout.pageSize c.position length).length
    have := Span.first_length_pos c.position h
    match c.advance sink channel source size s with
    | (.error stop, c, s) => (.error stop, c, s)
    | (.ok (), c, s) => c.advanceAll channel (source + size) (length - size) s
termination_by length

/-- Takes the next extent. -/
def push (extent : Extent) (c : Cursor) (s : σ) : Except (Stop ρ) Unit × Cursor × σ :=
  c.advanceAll sink extent.channel extent.source extent.length s

/-- Takes extents until one stops the cursor. -/
def pushAll : List Extent → Cursor → σ → Except (Stop ρ) Unit × Cursor × σ
  | [], c, s => (.ok (), c, s)
  | extent :: rest, c, s =>
    match c.push sink extent s with
    | (.error stop, c, s) => (.error stop, c, s)
    | (.ok (), c, s) => pushAll rest c s

/-- Takes all extents and hands the last run over. -/
def drive (extents : List Extent) (c : Cursor) (s : σ) : Except (Stop ρ) Unit × σ :=
  match c.pushAll sink extents s with
  | (.error stop, _, s) => (.error stop, s)
  | (.ok (), c, s) =>
    let (answer, _, s) := c.flush sink s
    (answer, s)

end Cursor

/-- A sink that keeps every run, the last one first. -/
def collect : Sink Empty (List Run) := fun run runs => (.ok (), run :: runs)

/-- The runs that write `extents` from position `start` on. -/
def planRuns (layout : Layout) (start : Nat) (extents : List Extent) :
    Except (Stop Empty) (List Run) :=
  let (answer, runs) := (Cursor.mk layout start none).drive collect extents []
  answer.map fun _ => runs.reverse

/-- The bytes of a run: which channel reads each and where, and where it goes. -/
def Run.bytes (r : Run) : List (Channel × Nat × PhysAddr) :=
  (List.range r.length).map fun k => (r.channel, r.source + k, r.target.offset k)

end PeerDma
