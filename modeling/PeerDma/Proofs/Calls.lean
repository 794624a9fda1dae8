import PeerDma.Lifecycle
import PeerDma.Proofs.Routes

/-!
# Runs

A `System` is a world with the references that callers hold. Callers, channels and the device may do
anything in any order: `Call` lists what they can do, and `Reach` the systems that a run leads to.
Between calls the surroundings may change in any way.

* `System.perform`: what a call does. A reference is given back only by somebody who holds it.
* `System.perform_moves`: a call is a sequence of moves that leaves nothing in hand but references.
* `Reach.invariant`: an invariant of moves holds of every system that a run leads to.
-/

namespace PeerDma

/-- A world and the references to its regions that callers hold. -/
structure System (ε : Type) where
  world : World ε
  held : List Handle := []

/-- What can happen to a system. -/
inductive Call where
  -- Callers.
  | map (owner : Pid) (address : GpuAddr) (length : Nat)
  | acquire (handle : Handle)
  | release (handle : Handle)
  | info (handle : Handle) (capacity : Nat)
  | teardown (handle : Handle) (cause : Cause)
  | copyAsync (order : CopyOrder)
  | copy (order : CopyOrder)
  | wait (task : TaskId)
  | cleanup (task : TaskId)
  | checkFile (descriptor : Int)
  | probe (descriptor : Int) (offset length : Nat)
  | dispatch (caller : Pid) (number : Nat) (block : Block)
  -- The device and the channels.
  | evict (handle : Handle)
  | land (token : Token)

/-- Whether the call cleans a task up by hand. -/
def Call.isCleanup : Call → Bool
  | cleanup _ => true
  | _ => false

namespace System

variable {ε : Type} (p : Platform ε)

/-- A system after a call. -/
def perform (c : Call) (s : System ε) : System ε :=
  let w := s.world
  match c with
  | .map owner address length => { s with world := (w.map p owner address length).2 }
  | .acquire h =>
    match w.acquire h with
    | (.error _, w) => { s with world := w }
    | (.ok _, w) => ⟨w, h :: s.held⟩
  | .release h => if h ∈ s.held then ⟨w.put p h, s.held.erase h⟩ else s
  | .info h capacity => { s with world := (w.info p h capacity).2 }
  | .teardown h cause => { s with world := (w.teardown p h cause).2 }
  | .copyAsync order => { s with world := (w.copyAsync p order).2 }
  | .copy order => { s with world := (w.copy p order).2 }
  | .wait task => { s with world := (w.wait task).2 }
  | .cleanup task => { s with world := (w.cleanup p task).2 }
  | .checkFile descriptor => { s with world := (w.checkFile p descriptor).2 }
  | .probe descriptor offset length =>
    { s with world := (w.probe p World.logProbe descriptor offset length).2 }
  | .dispatch caller number block => { s with world := (w.dispatch p caller number block).2 }
  | .evict h => { s with world := (w.evict p h).2 }
  | .land token => { s with world := w.land p token }

/-- A system between calls: only references are in hand. -/
def moment (s : System ε) : Moment ε := ⟨s.world, { refs := ↑s.held }⟩

end System

/-- A new instance and nothing else. -/
def World.fresh {ε : Type} (placement : Placement) (config : Config) (x : ε) : World ε :=
  ⟨.create placement config, Ambient.log { outside := x } (.initialized config)⟩

/-- The systems that a run of allowed calls leads to. -/
inductive Reach {ε : Type} (p : Platform ε) (allowed : Call → Prop) : System ε → Prop where
  | start {placement : Placement} {config : Config} {x : ε} {w : World ε}
      (h : Ambient.start placement config { outside := x } = (.ok w.core, w.ambient)) :
      Reach p allowed { world := w }
  | call {s : System ε} (before : Reach p allowed s) (c : Call) (h : allowed c) :
      Reach p allowed (s.perform p c)
  | outside {s : System ε} (before : Reach p allowed s) (x : ε) :
      Reach p allowed { s with world := s.world.setOutside x }

variable {ε : Type} {p : Platform ε} {stray : Prop}

/-- A call is a sequence of moves. -/
theorem System.perform_moves (hs : stray ∨ p.CleansNothing) {c : Call} (hc : c.isCleanup → stray)
    {s : System ε} (hps : Word.isPowerOfTwo s.world.core.config.hostPageSize) :
    Moves p stray s.moment (s.perform p c).moment := by
  obtain ⟨w, held⟩ := s
  let k : Hand := { refs := ↑held }
  cases c with
  | map owner address length => exact Moves.map owner address length w k
  | acquire h =>
    unfold System.perform System.moment
    dsimp only
    rcases ha : w.acquire h with ⟨e | use, w'⟩
    · exact Moves.acquire_error ha k
    · exact Moves.acquire ha k
  | release h =>
    unfold System.perform System.moment
    dsimp only
    split
    · next hm =>
      rw [Multiset.coe_eq_coe.2 (List.perm_cons_erase hm)]
      exact Moves.put h w { refs := ↑(held.erase h) }
    · exact .refl
  | info h capacity => exact Moves.info h capacity w k
  | teardown h cause => exact Moves.teardown h cause w k
  | copyAsync order => exact Moves.copyAsync hs hps k
  | copy order => exact Moves.copy hs hps k
  | wait task => exact Moves.await task .wait rfl w k
  | cleanup task => exact .head (.stray w k task (hc rfl)) (Moves.cleanup task w k)
  | checkFile descriptor => exact Moves.checkFile descriptor w k
  | probe descriptor offset length => exact Moves.probe descriptor offset length w k
  | dispatch caller number block => exact Moves.dispatch hs caller number block hps k
  | evict h => exact Moves.evict h w k
  | land token => exact Moves.land token w k

theorem Ambient.start_ok {placement : Placement} {config : Config} {x : ε} {w : World ε}
    (h : Ambient.start placement config { outside := x } = (.ok w.core, w.ambient)) :
    w = .fresh placement config x ∧ Word.isPowerOfTwo config.hostPageSize := by
  unfold Ambient.start at h
  cases hc : config.check with
  | error fault => simp [hc] at h
  | ok =>
    obtain ⟨core, ambient⟩ := w
    simp only [hc, Prod.mk.injEq, Except.ok.injEq] at h
    obtain ⟨rfl, rfl⟩ := h
    exact ⟨rfl, Config.check_ok hc⟩

namespace Reach

variable {allowed : Call → Prop} {s : System ε}

/-- A run of calls that are allowed is a run if more are. -/
theorem mono {more : Call → Prop} (hsub : ∀ c, allowed c → more c) (h : Reach p allowed s) :
    Reach p more s := by
  induction h with
  | start h => exact .start h
  | call _ c hc ih => exact .call ih c (hsub c hc)
  | outside _ x ih => exact .outside ih x

theorem isPowerOfTwo (hs : stray ∨ p.CleansNothing) (hc : ∀ c, allowed c → c.isCleanup → stray)
    (h : Reach p allowed s) : Word.isPowerOfTwo s.world.core.config.hostPageSize := by
  induction h with
  | start h =>
    obtain ⟨rfl, hps⟩ := Ambient.start_ok h
    exact hps
  | @call s _ c h ih =>
    have hconfig : (s.perform p c).world.core.config = s.world.core.config :=
      Moves.config (System.perform_moves hs (hc c h) ih)
    exact hconfig ▸ ih
  | outside _ x ih => exact ih

/-- The moves of a call after a run. -/
theorem moves (hs : stray ∨ p.CleansNothing) (hc : ∀ c, allowed c → c.isCleanup → stray)
    (h : Reach p allowed s) {c : Call} (hstray : c.isCleanup → stray) :
    Moves p stray s.moment (s.perform p c).moment :=
  System.perform_moves hs hstray (h.isPowerOfTwo hs hc)

/-- **Induction over runs.** What holds of a new instance and is kept by each move holds of every
system that a run leads to. If tasks are cleaned up by hand, moves may be `stray`. -/
theorem invariant (hs : stray ∨ p.CleansNothing) (hc : ∀ c, allowed c → c.isCleanup → stray)
    {I : Moment ε → Prop} (fresh : ∀ placement config x, I ⟨.fresh placement config x, {}⟩)
    (move : ∀ m m', Move p stray m m' → I m → I m') (h : Reach p allowed s) : I s.moment := by
  induction h with
  | start h =>
    obtain ⟨rfl, -⟩ := Ambient.start_ok h
    exact fresh _ _ _
  | call before c h ih => exact Moves.keeps move (before.moves hs hc (hc c h)) ih
  | outside _ x ih => exact move _ _ (.outside _ _ x) ih

/-- Any calls, with tasks cleaned up by hand and from inside other calls. -/
theorem any_invariant {I : Moment ε → Prop}
    (fresh : ∀ placement config x, I ⟨.fresh placement config x, {}⟩)
    (move : ∀ m m', Move p True m m' → I m → I m') (h : Reach p (fun _ => True) s) : I s.moment :=
  h.invariant (.inl trivial) (fun _ _ _ => trivial) fresh move

/-- The moves of any call after a run of any calls. -/
theorem any_moves (h : Reach p (fun _ => True) s) (c : Call) :
    Moves p True s.moment (s.perform p c).moment :=
  h.moves (.inl trivial) (fun _ _ _ => trivial) fun _ => trivial

end Reach

end PeerDma
