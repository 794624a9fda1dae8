import PeerDma.Bench.Report
import PeerDma.Bench.Step
import PeerDma.Lifecycle

/-!
# Sessions

A session drives instances on one bench, step by step, with a report after each step of what has
happened since the last report.

Several instances can be around at once: one that is dropped lives on while a named reference, a
parked call or a task in flight belongs to it. They are told apart by a number.
-/

namespace PeerDma

namespace Bench

/-! ## The state of a session -/

/-- A call that is parked. -/
structure ParkedStep where
  inst : Nat
  waiter : Waiter
  step : Nat
  /-- Whether the caller holds on to the instance. The device, when it evicts, holds on to the
  regions only. -/
  holds : Bool
  /-- The answer of the step once the call comes back. -/
  answer : Reply → Answer

/-- A reference that a session keeps under a name. -/
structure NamedReference where
  name : String
  inst : Nat
  region : Region

/-- The state of a session. -/
structure Session where
  /-- Whether the steps use the instance of the process. -/
  ofProcess : Bool := false
  bench : Bench := {}
  /-- Every instance so far. -/
  cores : Table Nat Core := .empty
  /-- The instance of the session. -/
  own : Option Nat := none
  /-- The instance of the process. -/
  process : Option Nat := none
  references : List NamedReference := []
  parked : List ParkedStep := []
  /-- The number of the step at work. -/
  step : Nat := 0
  /-- Since the last report, the last one first. -/
  events : List Event := []
  /-- Since the last report. -/
  woken : List (Nat × Answer) := []
  ledger : Ledger := {}

namespace Session

/-- The instance that steps use. -/
def current (s : Session) : Option Nat := if s.ofProcess then s.process else s.own

/-- The state of the instance that steps use. -/
def currentCore (s : Session) : Option Core := s.current.bind s.cores.find?

/-- Adds events. -/
def record (s : Session) (events : List Event) : Session :=
  { s with events := events ++ s.events, ledger := events.foldr (fun e l => l.record e) s.ledger }

/-- Works on the bench alone. -/
def onAmbient {α : Type} (f : Ambient Bench → α × Ambient Bench) (s : Session) : α × Session :=
  let (value, ambient) := f { outside := s.bench }
  (value, { s with bench := ambient.outside }.record ambient.history)

/-- The answers of the steps whose parked calls came back. -/
def collectWoken (inst : Nat) (events : List Event) (s : Session) : Session :=
  let back := events.filterMap fun
    | .resumed waiter reply =>
      (s.parked.find? fun k => k.inst = inst && k.waiter = waiter).map fun k =>
        (k.step, k.answer reply)
    | _ => none
  let isBack (k : ParkedStep) : Bool := events.any fun
    | .resumed waiter _ => k.inst = inst && k.waiter = waiter
    | _ => false
  { s with woken := s.woken ++ back, parked := s.parked.filter (!isBack ·) }

/-- Works on an instance. What happens there comes with the answer, the last event first. -/
def enter {α : Type} (inst : Nat) (f : World Bench → α × World Bench) (s : Session) :
    Option (α × List Event) × Session :=
  match s.cores.find? inst with
  | none => (none, s)
  | some core =>
    let (value, w) := f { core, ambient := { outside := { s.bench with inst } } }
    let history := w.ambient.history
    let s := { s with bench := w.ambient.outside, cores := s.cores.insert inst w.core }
    (some (value, history), s.collectWoken inst history)

/-- Whether an instance has not been dropped, or the caller of a parked call holds on to it. -/
def isHeld (s : Session) (inst : Nat) : Bool :=
  s.own = some inst || s.process = some inst || s.parked.any fun k => k.inst = inst && k.holds

/-- Cleans the task of a hook up, and puts what happens into the history of the call that set the
hook off. -/
def fire (s : Session) (history : List Event) (hook : Hook) : Session × List Event :=
  match s.enter hook.inst (·.cleanup platform hook.task) with
  | (none, s) => (s, history)
  | (some (_, events), s) => (s, hook.splice events history)

/-- Works on an instance, and then on those whose hooks went off. A hook does not hold on to its
instance, and does nothing once that is gone; a caller whom one hook wakes is still there for the
next. -/
def onWorld {α : Type} (inst : Nat) (f : World Bench → α × World Bench) (s : Session) :
    Option α × Session :=
  match s.enter inst f with
  | (none, s) => (none, s)
  | (some (value, history), after) =>
    let (after, history) := (after.bench.fired.filter (s.isHeld ·.inst)).foldl
      (fun (s, history) hook => s.fire history hook)
      ({ after with bench := { after.bench with fired := [] } }, history)
    (some value, after.record history)

/-- Changes the bench. -/
def script (change : Bench → Bench) (s : Session) : Answer × Session :=
  (.done, { s with bench := change s.bench })

/-- Whether anything of an instance is still around. -/
def isAlive (s : Session) (inst : Nat) : Bool :=
  s.isHeld inst || s.parked.any (·.inst = inst) || s.references.any (·.inst = inst) ||
    (s.cores.find? inst).any fun c => !c.flights.flights.isEmpty && !c.tasks.isEmpty

/-! ## Calls -/

/-- Calls the instance that steps use. -/
def call (f : World Bench → Answer × World Bench) (s : Session) : Answer × Session :=
  match s.current with
  | none => (.failed .notInitialized, s)
  | some inst =>
    let (answer, s) := s.onWorld inst f
    (answer.getD (.failed .notInitialized), s)

/-- Looks at the instance that steps use. -/
def look (f : Core → Answer) (s : Session) : Answer × Session :=
  s.call fun w => (f w.core, w)

/-- The answer of a call to an instance that may park; `later` is the one after that, and `holds`
says whether the caller holds on to the instance. -/
def settle {α : Type} (inst : Nat) (holds : Bool) (now : α → Answer) (later : Reply → Answer)
    (outcome : Option (Outcome α)) (s : Session) : Answer × Session :=
  match outcome with
  | none => (.failed .notInitialized, s)
  | some (.returned value) => (now value, s)
  | some (.parked waiter) =>
    (.blocked, { s with parked := s.parked ++ [⟨inst, waiter, s.step, holds, later⟩] })

/-- Calls the instance that steps use, in a way that may park. -/
def callBlocking {α : Type} (f : World Bench → Outcome α × World Bench) (now : α → Answer)
    (later : Reply → Answer) (s : Session) : Answer × Session :=
  match s.current with
  | none => (.failed .notInitialized, s)
  | some inst =>
    let (outcome, s) := s.onWorld inst f
    s.settle inst true now later outcome

/-- The answer of a copy that has waited for its task. -/
def copied : Reply → Answer
  | .copied id => .task id
  | .done => .done

/-- Gives a named reference back. -/
def putReference (r : NamedReference) (s : Session) : Session :=
  (s.onWorld r.inst fun w => ((), w.put platform r.region.handle)).2

/-- Gives a reference back by its name; the answer is whether there is one. -/
def release (name : String) (s : Session) : Bool × Session :=
  match s.references.find? (·.name = name) with
  | none => (false, s)
  | some r => (true, { s with references := s.references.filter (·.name ≠ name) }.putReference r)

/-- Takes a reference under a name. One that has had the name is given back afterwards. -/
def acquire (handle : Handle) (name : String) (s : Session) : Answer × Session :=
  match s.current with
  | none => (.failed .notInitialized, s)
  | some inst =>
    match s.onWorld inst (·.acquire handle) with
    | (some (.ok use), s) =>
      let (_, s) := s.release name
      (.reference use, { s with references := s.references ++ [⟨name, inst, use.region⟩] })
    | (some (.error e), s) => (.failed e, s)
    | (none, s) => (.failed .notInitialized, s)

/-- Works with a named reference. -/
def withReference (name : String) (f : NamedReference → Session → Answer × Session)
    (s : Session) : Answer × Session :=
  match s.current with
  | none => (.failed .notInitialized, s)
  | some _ =>
    match s.references.find? (·.name = name) with
    | none => (.unknownReference, s)
    | some r => f r s

/-- The references that a named reference's region has. -/
def refs (r : NamedReference) (s : Session) : Answer × Session :=
  let n := ((s.cores.find? r.inst).bind (·.mappings.use? r.region.handle)).map RegionUse.refs
  (.refs (n.getD 0), s)

/-- Fires the first eviction notice for a base; the answer is whether there is one. A notice of an
instance that is gone does nothing. -/
def evict (base : GpuAddr) (s : Session) : Answer × Session :=
  match s.current with
  | none => (.failed .notInitialized, s)
  | some _ =>
    let (notice, pager) := s.bench.pager.takeNotice base
    let s := { s with bench := { s.bench with pager } }
    match notice with
    | none => (.truth false, s)
    | some notice =>
      if s.isAlive notice.inst then
        let (outcome, s) := s.onWorld notice.inst (·.evict platform notice.handle)
        s.settle notice.inst false (fun _ => .truth true) (fun _ => .truth true) outcome
      else (.truth true, s)

/-- Ends submissions whose tokens a channel has kept. -/
def land (tokens : List (Nat × Token)) (s : Session) : Session :=
  tokens.foldl (fun s (inst, token) => (s.onWorld inst fun w => ((), w.land platform token)).2) s

/-- Ends all submissions whose tokens channels have kept; the answer is their number. -/
def complete (channels : List Channel) (s : Session) : Nat × Session :=
  channels.foldl
    (fun (count, s) channel =>
      let (tokens, lane) := (s.bench.lane channel).takeAll
      let s := { s with bench := s.bench.setLane channel lane }
      (count + tokens.length, s.land tokens))
    (0, s)

/-- Ends one submission; the answer is whether there is one. -/
def completeOne (channel : Channel) (index : Nat) (s : Session) : Bool × Session :=
  match (s.bench.lane channel).takeOne? index with
  | none => (false, s)
  | some (kept, lane) => (true, { s with bench := s.bench.setLane channel lane }.land [kept])

/-- Probes a file without asking whether it may be copied from. -/
def probeRaw (descriptor : Int) (pageSize offset length : Nat) (s : Session) :
    Answer × Session :=
  match s.bench.disk.openFile descriptor with
  | .error e => (.failed e, s)
  | .ok file =>
    let (probes, s) := s.onAmbient (·.probe platform (fun _ a => a) pageSize file offset length)
    (.probes probes, s)

/-! ## Instances -/

/-- Makes room for another instance; the answer is its number. -/
def addCore (core : Core) (s : Session) : Nat × Session :=
  let inst := s.cores.size
  (inst, { s with cores := s.cores.insert inst core })

/-- Drops the instance of the session and starts another one. -/
def recreate (config : Config) (s : Session) : Except Error Unit × Session :=
  match { s with own := none }.onAmbient (·.start {} config) with
  | (.error e, s) => (.error e, s)
  | (.ok core, s) =>
    let (inst, s) := s.addCore core
    (.ok (), { s with own := some inst })

/-- The state of the instance of the process. -/
def processCore (s : Session) : Option Core := s.process.bind s.cores.find?

/-- Starts the instance of the process. -/
def startProcess (config : Config) (s : Session) : Except Error Unit × Session :=
  match s.onAmbient (Process.start {} config s.processCore) with
  | (.error e, s) => (.error e, s)
  | (.ok core, s) =>
    let (inst, s) := s.addCore core
    (.ok (), { s with process := some inst })

/-- Drops the instance of the process. -/
def stopProcess (s : Session) : Except Error Unit × Session :=
  match s.onAmbient (Process.stop s.processCore) with
  | (.error e, s) => (.error e, s)
  | (.ok (), s) => (.ok (), { s with process := none })

/-! ## Running -/

/-- Does a step. -/
def perform (step : Step) (s : Session) : Answer × Session :=
  match step with
  | .map caller address length => s.call fun w =>
    let (r, w) := w.map platform caller address length
    (.ofResult .mapping r, w)
  | .unmap handle =>
    s.callBlocking (·.teardown platform handle .unmap) (.ofResult fun _ => .done) fun _ => .done
  | .teardown handle cause =>
    s.callBlocking (·.teardown platform handle cause) (.ofResult fun _ => .done) fun _ => .done
  | .info handle capacity => s.call fun w =>
    let (r, w) := w.info platform handle capacity
    (.ofResult .info r, w)
  | .checkFile descriptor => s.call fun w =>
    let (r, w) := w.checkFile platform descriptor
    (.ofResult (fun _ => .done) r, w)
  | .copy order => s.callBlocking (·.copy platform order) (.ofResult .task) copied
  | .copyAsync order => s.call fun w =>
    let (r, w) := w.copyAsync platform order
    (.ofResult .task r, w)
  | .wait task => s.callBlocking (·.wait task) (.ofResult fun _ => .done) fun _ => .done
  | .cleanup task => s.call fun w =>
    let (r, w) := w.cleanup platform task
    (.ofResult (fun _ => .done) r, w)
  | .contains task => s.look fun c => .truth (c.tasks.contains task)
  | .probe descriptor offset length => s.call fun w =>
    let (r, w) := w.probe platform (fun _ a => a) descriptor offset length
    (.ofResult .probes r, w)
  | .snapshot => s.look fun c => .regions c.mappings.snapshot
  | .status => s.look fun c => .text c.statusText
  | .describe => s.look fun c => .text c.describe
  | .config => s.look fun c => .config c.config
  | .acquire handle name => s.acquire handle name
  | .release name =>
    if s.current.isNone then (.failed .notInitialized, s)
    else
      let (found, s) := s.release name
      (.truth found, s)
  | .refs name => s.withReference name refs
  | .window name offset length => s.withReference name fun r s =>
    let (result, s) := s.onWorld r.inst (·.window r.region offset length)
    (result.elim (.failed .notInitialized) (.ofResult .position), s)
  | .plan name start extents => s.withReference name fun r s =>
    match planRuns r.region.layout start extents with
    | .ok runs => (.runs runs, s)
    | .error (.outside position) =>
      let (_, s) := s.onAmbient fun a => ((), a.log (.outsideTable position))
      (.failed ((Stop.outside position).error Empty.elim), s)
  | .evict base => s.evict base
  | .dispatch caller number block =>
    s.callBlocking (·.dispatch platform caller number block)
      (fun (code, block) => .status code block) fun reply =>
        let (code, block) := block.settle reply
        .status code block
  | .failPin e => s.script fun b => { b with pager := { b.pager with failNext := some e } }
  | .revokePin => s.script fun b => { b with pager := { b.pager with revokeNext := true } }
  | .scriptTable t => s.script fun b => { b with pager := { b.pager with script := some t } }
  | .failUnpin e => s.script fun b => { b with pager := { b.pager with failUnpin := some e } }
  | .failHost e => s.script fun b => { b with host := { b.host with failNext := some e } }
  | .limitHost most => s.script fun b => { b with host := { b.host with limit := some most } }
  | .extraHost extra => s.script fun b => { b with host := { b.host with extra } }
  | .addFile descriptor file =>
    s.script fun b => { b with disk := b.disk.install descriptor file }
  | .failBlock index =>
    s.script fun b => { b with disk := { b.disk with failAt := some index } }
  | .setBlock index answer => s.script fun b =>
    { b with disk := { b.disk with answers := b.disk.answers.insert index answer } }
  | .setProvider provider => s.script fun b => { b with disk := { b.disk with provider } }
  | .unload kind => s.script fun b =>
    { b with disk := { b.disk with unloaded := kind :: b.disk.unloaded } }
  | .refuse channel attempt => s.script fun b =>
    b.setLane channel { b.lane channel with refuseAt := some attempt }
  | .hook site task =>
    match s.current with
    | none => (.failed .notInitialized, s)
    | some inst => s.script (·.arm ⟨site, inst, task⟩)
  | .complete channels =>
    let (count, s) := s.complete channels
    (.count count, s)
  | .completeOne channel index =>
    let (found, s) := s.completeOne channel index
    (.truth found, s)
  | .geometry index address =>
    (.geometry (s.bench.pager.physOf index).raw (s.bench.host.dmaOf address) (Disk.blockOf index)
      (cacheDma index), s)
  | .requests channel => (.requests (s.bench.lane channel).requests.reverse, s)
  | .probeRaw descriptor pageSize offset length => s.probeRaw descriptor pageSize offset length
  | .recreate config =>
    let (r, s) := s.recreate config
    (.ofResult (fun _ => .done) r, s)
  | .start config =>
    let (r, s) := s.startProcess config
    (.ofResult (fun _ => .done) r, s)
  | .present =>
    (match s.processCore with
      | none => .failed .notInitialized
      | some core => .truth core.isIdle, s)
  | .isPresent => (.truth s.process.isSome, s)
  | .stop =>
    let (r, s) := s.stopProcess
    (.ofResult (fun _ => .done) r, s)

/-- Reports what has happened since the last report. -/
def report (answer : Answer) (s : Session) : Report × Session :=
  let events := s.events.reverse
  let report : Report := {
    answer
    submitted := events.filterMap fun
      | .submitted flight => some flight
      | _ => none
    unpinned := (events.filterMap fun
      | .unpinned _ base _ cause => some (base, cause)
      | _ => none).mergeSort fun a b =>
        a.1.raw < b.1.raw || (a.1 = b.1 && (a.2 = .evicted || b.2 = .unmap))
    woken := s.woken.mergeSort fun a b => a.1 ≤ b.1
    summary := s.currentCore.map Summary.of
    ledger := s.ledger
    pendingMemory := s.bench.memory.pending.length
    pendingStorage := s.bench.storage.pending.length
    log := events.filterMap fun
      | .logged entry => some entry
      | _ => none }
  (report, { s with events := [], woken := [] })

/-- Does steps, with a report after each. -/
def run : List Step → Session → List Report × Session
  | [], s => ([], s)
  | step :: rest, s =>
    let (answer, s) := s.perform step
    let (report, s) := s.report answer
    let (reports, s) := run rest { s with step := s.step + 1 }
    (report :: reports, s)

/-- Gives all named references back, in the order of their names, and ends all submissions. The
answer is how many there were and how many calls are parked after that. -/
def drain (s : Session) : Nat × Nat × Session :=
  let references := s.references.mergeSort fun a b => a.name ≤ b.name
  let s := references.foldl (fun s r => s.putReference r) { s with references := [] }
  let (count, s) := s.complete [.memory, .storage]
  (count, s.parked.length, s)

end Session

end Bench

end PeerDma
