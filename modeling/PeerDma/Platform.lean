import PeerDma.Eligibility
import PeerDma.Flights
import PeerDma.Log
import PeerDma.Parking
import PeerDma.PinSet
import PeerDma.Tasks

/-!
# The surroundings

The library reaches everything outside through a `Platform`: functions over a state `ε` of the
surroundings, each of which gives an answer and the state after it. What passes to and fro is kept
as a history of `Event`s; an `Ambient` is a state with its history.

The surroundings may call back while they answer. Their answers say so: a pin may find its range
taken back at once (`PinGrant.revoked`), a host pin or a submission may come with tasks to clean
up first, and a channel may use up any tokens before it answers (`SubmitAnswer.ended`). A channel
that throws a token away uses it up.
-/

namespace PeerDma

/-- The answer to a successful pin. -/
structure PinGrant where
  table : PageTable
  /-- Whether the eviction notice of the pin fired before the answer. -/
  revoked : Bool := false
  deriving DecidableEq, Repr

/-- The answer to a pin of host pages. -/
structure HostGrant where
  /-- Tasks that the surroundings clean up first. -/
  cleanups : List TaskId := []
  pages : Except Error (List HostPage)

/-- The answer to a submission. -/
structure SubmitAnswer where
  /-- Tasks that the surroundings clean up first. -/
  cleanups : List TaskId := []
  /-- Whether the channel takes the submission. -/
  verdict : Except Error Unit
  /-- Tokens that the channel uses up before it answers, in order. -/
  ended : List Token := []

/-- The surroundings, with states in `ε`. -/
structure Platform (ε : Type) where
  /-- Pins device memory from an address on. The handle stands for the eviction notice. -/
  pin : Handle → GpuAddr → (length : Nat) → ε → Except Error PinGrant × ε
  /-- Takes a pin back, whatever it answers. -/
  unpin : GpuAddr → PageTable → Cause → ε → Except Error Unit × ε
  /-- Takes references to host pages from an address on, perhaps to fewer or more than asked. -/
  pinHost : (address count : Nat) → ε → HostGrant × ε
  /-- Gives page references back. -/
  release : List HostPage → ε → ε
  /-- The file behind a descriptor. -/
  openFile : Int → ε → Except Error File
  /-- The module that is loaded for a filesystem. -/
  provider : Filesystem → ε → Option ModuleId
  /-- Takes a reference to a page of a file, if it is in the page cache. -/
  cachedPage : File → (index : Nat) → ε → Option HostPage × ε
  /-- The disk block of a page of a file. -/
  resolveBlock : File → (index : Nat) → ε → Except Error Nat × ε
  /-- Hands a submission to a channel. -/
  submit : Token → Channel → Request → ε → SubmitAnswer × ε

/-- What has passed between the library and its surroundings. -/
inductive Event where
  /-- A line for the log. -/
  | logged (entry : Log.Entry)
  /-- Device memory is pinned. -/
  | pinned (handle : Handle) (base : GpuAddr) (table : PageTable)
  /-- A pin is handed back. -/
  | unpinned (handle : Handle) (base : GpuAddr) (table : PageTable) (cause : Cause)
  /-- References to host pages are obtained. -/
  | hostPinned (address count : Nat) (pages : List HostPage)
  /-- A reference to a page in the page cache is obtained. -/
  | cacheHit (file : Int) (index : Nat) (page : HostPage)
  /-- The disk block of a page of a file is found. -/
  | blockFound (file : Int) (index block : Nat)
  /-- Page references are given back. -/
  | released (pages : List HostPage)
  /-- A channel takes a submission. -/
  | submitted (flight : Flight)
  /-- A channel uses the token of a submission up. -/
  | landed (flight : Flight)
  /-- A parked call comes back. -/
  | resumed (waiter : Waiter) (reply : Reply)
  deriving DecidableEq, Repr

/-- A state of the surroundings and how it came about. -/
structure Ambient (ε : Type) where
  outside : ε
  /-- The last event first. -/
  history : List Event := []

namespace Ambient

variable {ε : Type}

/-- Adds an event. -/
def note (a : Ambient ε) (e : Event) : Ambient ε := { a with history := e :: a.history }

/-- Adds a line to the log. -/
def log (a : Ambient ε) (e : Log.Entry) : Ambient ε := a.note (.logged e)

variable (p : Platform ε)

/-- Pins device memory. -/
def pin (a : Ambient ε) (handle : Handle) (base : GpuAddr) (length : Nat) :
    Except Error PinGrant × Ambient ε :=
  let (answer, outside) := p.pin handle base length a.outside
  let a := { a with outside }
  match answer with
  | .error e => (.error e, a)
  | .ok grant => (.ok grant, a.note (.pinned handle base grant.table))

/-- Hands a pin back. -/
def unpin (a : Ambient ε) (handle : Handle) (base : GpuAddr) (table : PageTable)
    (cause : Cause) : Except Error Unit × Ambient ε :=
  let (answer, outside) := p.unpin base table cause a.outside
  (answer, { a with outside }.note (.unpinned handle base table cause))

/-- Gives a set of page references back; an empty set is not worth a call. -/
def release (a : Ambient ε) (pins : PinSet) : Ambient ε :=
  if pins.isEmpty then a
  else { a with outside := p.release pins.pages a.outside }.note (.released pins.pages)

/-- Gives sets of page references back. -/
def releaseAll (a : Ambient ε) (pins : List PinSet) : Ambient ε :=
  pins.foldl (fun a pins => a.release p pins) a

/-- Looks a page of a file up in the page cache. -/
def cachedPage (a : Ambient ε) (file : File) (index : Nat) : Option HostPage × Ambient ε :=
  let (page, outside) := p.cachedPage file index a.outside
  let a := { a with outside }
  match page with
  | none => (none, a)
  | some page => (some page, a.note (.cacheHit file.descriptor index page))

/-- Looks the disk block of a page of a file up. -/
def resolveBlock (a : Ambient ε) (file : File) (index : Nat) : Except Error Nat × Ambient ε :=
  let (answer, outside) := p.resolveBlock file index a.outside
  let a := { a with outside }
  match answer with
  | .error e => (.error e, a)
  | .ok block => (.ok block, a.note (.blockFound file.descriptor index block))

/-- Whether a file may take the direct path. -/
def checkFile (a : Ambient ε) (pageSize : Nat) (file : File) : Except Error Unit × Ambient ε :=
  match file.classify pageSize (p.provider · a.outside) with
  | .ok _ => (.ok (), a)
  | .error reason => (.error (.unsupported reason), a.log (.ineligible reason))

/-- The file behind a descriptor, if it may take the direct path. -/
def openChecked (a : Ambient ε) (pageSize : Nat) (descriptor : Int) :
    Except Error File × Ambient ε :=
  match p.openFile descriptor a.outside with
  | .error e => (.error e, a)
  | .ok file =>
    match a.checkFile p pageSize file with
    | (.error e, a) => (.error e, a)
    | (.ok (), a) => (.ok file, a)

end Ambient

end PeerDma
