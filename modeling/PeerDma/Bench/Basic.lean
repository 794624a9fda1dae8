import PeerDma.Bench.Disk
import PeerDma.Bench.Host
import PeerDma.Bench.Lane
import PeerDma.Bench.Pager

/-!
# The bench

Surroundings for experiments, all in memory: a pager, host memory, files and two channels, each
scripted from outside. `Bench.platform` offers them to an instance.

Once armed, a hook cleans a task up at the start of the next host pin or submission, whichever
instance is at work by then. The task belongs to the instance for which the hook was armed. If that
is the one at work, the answer of the bench names the task; otherwise the hook is kept in
`Bench.fired` until the call is over, and `Hook.splice` puts what it does in its place.
-/

namespace PeerDma

/-- Where a hook can be armed. -/
inductive Bench.HookSite where
  | host
  | lane (channel : Channel)
  deriving DecidableEq, Repr

/-- Whether a hook at the site goes off right after an event. The first host pin of a task follows
its admission, and a submission follows its line in the log. -/
def Bench.HookSite.follows (site : HookSite) : Event → Bool
  | .logged (.admitted _) => site = .host
  | .logged (.submitting _ run) => site = .lane run.channel
  | _ => false

/-- A hook. -/
structure Bench.Hook where
  site : HookSite
  /-- The instance that the task belongs to. -/
  inst : Nat
  task : TaskId
  deriving DecidableEq, Repr

/-- Puts the events of a hook into a history, right after the first event that it follows. Both
have the last event first. -/
def Bench.Hook.splice (hook : Hook) (events history : List Event) : List Event :=
  let (before, rest) := history.reverse.span (!hook.site.follows ·)
  (before ++ rest.take 1 ++ events.reverse ++ rest.drop 1).reverse

/-- Surroundings for experiments. -/
structure Bench where
  /-- Which of the instances on the bench is at work. -/
  inst : Nat := 0
  pager : Bench.Pager := {}
  host : Bench.Host := {}
  disk : Bench.Disk := {}
  memory : Bench.Lane := {}
  storage : Bench.Lane := {}
  /-- The armed hooks, at most one for each site. -/
  hooks : List Bench.Hook := []
  /-- The hooks of other instances that have gone off during a call, in order. -/
  fired : List Bench.Hook := []

namespace Bench

/-- A channel. -/
def lane (b : Bench) : Channel → Lane
  | .memory => b.memory
  | .storage => b.storage

/-- The bench with another channel. -/
def setLane (b : Bench) (channel : Channel) (lane : Lane) : Bench :=
  match channel with
  | .memory => { b with memory := lane }
  | .storage => { b with storage := lane }

/-- Arms a hook, in place of the one that its site had. -/
def arm (b : Bench) (hook : Hook) : Bench :=
  { b with hooks := hook :: b.hooks.filter (·.site ≠ hook.site) }

/-- Uses up the hook of a site. The answer is its task, if the instance at work has it. -/
def takeHook (b : Bench) (site : HookSite) : List TaskId × Bench :=
  let (armed, hooks) := b.hooks.partition (·.site = site)
  let (own, others) := armed.partition (·.inst = b.inst)
  (own.map Hook.task, { b with hooks, fired := b.fired ++ others })

/-- What the bench offers to an instance. -/
def platform : Platform Bench where
  pin handle base length b :=
    let (answer, pager) := b.pager.pin ⟨b.inst, handle⟩ base length
    (answer, { b with pager })
  unpin base _ _ b :=
    let (answer, pager) := b.pager.unpin base
    (answer, { b with pager })
  pinHost address count b :=
    let (cleanups, b) := b.takeHook .host
    let (pages, host) := b.host.pin address count
    ({ cleanups, pages }, { b with host })
  release _ b := b
  openFile descriptor b := b.disk.openFile descriptor
  provider kind b := b.disk.loaded kind
  cachedPage file index b := (b.disk.cachedPage file index, b)
  resolveBlock _ index b := (b.disk.resolveBlock index, b)
  submit token channel request b :=
    let (cleanups, b) := b.takeHook (.lane channel)
    let (verdict, ended, lane) := (b.lane channel).submit b.inst token request
    ({ cleanups, verdict, ended }, b.setLane channel lane)

end Bench

end PeerDma
