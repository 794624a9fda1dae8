import PeerDma.Bench.Basic
import PeerDma.Command
import PeerDma.Proofs.Transfer

/-!
# Statuses of commands

A command ends with a status: zero for success, the code of the error otherwise. The codes of the
library's own errors are negative, and so are those that the surroundings fail with, whatever their
sign, but for a failure with code zero. That one has the status of success.

* `Error.errno_neg`: which errors have negative codes.
* `Platform.Fails`, `World.execute_mayFail`: a failure of the surroundings that a command reports is
  one that they have answered with.
* `Outcome.final`: what a call returns, at once or after it has been parked.
* `World.dispatch_status`: when the status is zero.
-/

namespace PeerDma

variable {ε : Type} {p : Platform ε} {e : Error}

theorem Error.errno_neg (h : e ≠ .driverError 0) : e.errno < 0 := by
  cases e with
  | unsupported reason => cases reason <;> exact Int.negSucc_lt_zero _
  | driverError code =>
    have hne : code ≠ 0 := fun hz => h (hz ▸ rfl)
    show (if code < 0 then code else -code) < 0
    split <;> omega
  | _ => decide

/-! ## Where failures come from -/

/-- The surroundings can answer with an error. -/
inductive Platform.Fails (p : Platform ε) (e : Error) : Prop where
  | pin {handle : Handle} {base : GpuAddr} {length : Nat} {x : ε}
      (answer : (p.pin handle base length x).1 = .error e)
  | pinHost {address count : Nat} {x : ε} (answer : (p.pinHost address count x).1.pages = .error e)
  | openFile {descriptor : Int} {x : ε} (answer : p.openFile descriptor x = .error e)
  | resolveBlock {file : File} {index : Nat} {x : ε}
      (answer : (p.resolveBlock file index x).1 = .error e)
  | submit {token : Token} {channel : Channel} {request : Request} {x : ε}
      (answer : (p.submit token channel request x).1.verdict = .error e)

/-- An error that an operation may report: one of the library's own, or one of the surroundings. -/
def Platform.MayFail (p : Platform ε) (e : Error) : Prop := e.isDriverError → p.Fails e

theorem Platform.Fails.mayFail (h : p.Fails e) : p.MayFail e := fun _ => h

namespace Ambient

variable {a a' : Ambient ε}

theorem pin_mayFail {handle : Handle} {base : GpuAddr} {length : Nat}
    (h : a.pin p handle base length = (.error e, a')) : p.MayFail e := by
  unfold pin at h
  dsimp only at h
  split at h
  · next e' hanswer =>
    cases h
    exact (Platform.Fails.pin hanswer).mayFail
  · cases h

theorem openChecked_mayFail {pageSize : Nat} {descriptor : Int}
    (h : a.openChecked p pageSize descriptor = (.error e, a')) : p.MayFail e := by
  unfold openChecked at h
  split at h
  · next e' hanswer =>
    cases h
    exact (Platform.Fails.openFile hanswer).mayFail
  · next file hanswer =>
    unfold checkFile at h
    split at h
    · next e' a₁ hcheck =>
      split at hcheck
      · cases hcheck
      · cases hcheck
        cases h
        exact nofun
    · cases h

theorem resolveBlock_mayFail {file : File} {index : Nat}
    (h : a.resolveBlock p file index = (.error e, a')) : p.MayFail e := by
  unfold resolveBlock at h
  dsimp only at h
  split at h
  · next e' hanswer =>
    cases h
    exact (Platform.Fails.resolveBlock hanswer).mayFail
  · cases h

theorem locate_mayFail {file : File} {span : Span}
    (h : a.locate p file span = (.error e, a')) : p.MayFail e := by
  unfold locate at h
  split at h
  · cases h
  · split at h
    · next e' a₂ hblock =>
      cases h
      exact resolveBlock_mayFail hblock
    · split at h
      · cases h
        exact nofun
      · cases h

theorem locateAll_mayFail {pageSize : Nat} {file : File} {offset length : Nat} {pins : PinSet}
    (h : a.locateAll p pageSize file offset length pins = (.error e, a')) : p.MayFail e := by
  fun_induction locateAll p pageSize file offset length pins a with
  | case1 => cases h
  | case2 offset length pins a hpos span _ e' a₁ hlocate =>
    cases h
    exact locate_mayFail hlocate
  | case3 offset length pins a hpos span _ extent page a₁ hlocate e' a₂ hrest ih =>
    cases h
    exact ih hrest
  | case4 => cases h

theorem resolveFile_mayFail {pageSize : Nat} {file : Option File} {offset length : Nat}
    (h : a.resolveFile p pageSize file offset length = (.error e, a')) : p.MayFail e := by
  unfold resolveFile at h
  split at h
  · cases h
    exact nofun
  · split at h
    · cases h
      exact nofun
    · split at h
      · next e' a₁ hlocate =>
        cases h
        exact locateAll_mayFail hlocate
      · cases h

end Ambient

/-! ## What operations report -/

namespace World

variable {w w' : World ε}

theorem liftAmbient_error {α : Type} {f : Ambient ε → Except Error α × Ambient ε}
    (h : w.liftAmbient f = (.error e, w')) : f w.ambient = (.error e, w'.ambient) :=
  congrArg (fun answer => (answer.1, answer.2.ambient)) h

theorem pinHost_mayFail {address count : Nat} (h : w.pinHost p address count = (.error e, w')) :
    p.MayFail e := by
  unfold pinHost at h
  dsimp only at h
  split at h
  · next e' hanswer =>
    cases h
    exact (Platform.Fails.pinHost hanswer).mayFail
  · cases h

theorem resolveHost_mayFail {pageSize address length : Nat}
    (h : w.resolveHost p pageSize address length = (.error e, w')) : p.MayFail e := by
  unfold resolveHost at h
  split at h
  · cases h
    exact nofun
  · dsimp only at h
    split at h
    · next e' w₁ hpin =>
      cases h
      exact pinHost_mayFail hpin
    · split at h
      · cases h
        exact nofun
      · cases h

theorem resolveChunk_mayFail {file : Option File} {chunk : Chunk}
    (h : w.resolveChunk p file chunk = (.error e, w')) : p.MayFail e := by
  cases chunk with
  | host address length => exact resolveHost_mayFail h
  | file offset length => exact Ambient.resolveFile_mayFail (liftAmbient_error h)

theorem resolve_mayFail {file : Option File} {chunks : List Chunk} {stop : Unresolved}
    (h : w.resolve p file chunks = (.error stop, w')) : p.MayFail stop.error := by
  fun_induction resolve p file chunks w generalizing w' stop with
  | case1 => cases h
  | case2 chunk rest w e w₁ hchunk =>
    cases h
    exact resolveChunk_mayFail hchunk
  | case3 chunk rest w extents pins w₁ hchunk stop' w₂ hrest ih =>
    cases h
    have hfails : p.MayFail stop'.error := ih hrest
    exact hfails
  | case4 => cases h

theorem submit_mayFail {id : TaskId} {run : Run} (h : w.submit p id run = (.error e, w')) :
    p.MayFail e := by
  rw [submit_eq] at h
  split at h
  · cases h
  · next e' hanswer =>
    cases h
    exact (Platform.Fails.submit hanswer).mayFail

theorem feed_mayFail {id : TaskId} {runs : List Run}
    (h : Sink.feed (fun run w => w.submit p id run) runs w = (.error e, w')) : p.MayFail e := by
  induction runs generalizing w with
  | nil => cases h
  | cons run rest ih =>
    rw [Sink.feed] at h
    split at h
    · next e' w₁ hsubmit =>
      cases h
      exact submit_mayFail hsubmit
    · exact ih h

/-- A stop is a refusal of a channel, or a position outside the page table. -/
theorem submitAll_mayFail {task : Task} {region : Region} {extents : List Extent}
    (h : w.submitAll p task region extents = (.error e, w')) : p.MayFail e := by
  unfold submitAll at h
  dsimp only at h
  rw [Cursor.drive_eq_feed] at h
  generalize (Cursor.mk region.layout task.start none).drive collect extents [] = plan at h
  rcases hfeed : Sink.feed (fun run w => w.submit p task.id run) plan.2.reverse w with ⟨e' | _, w₁⟩
  · rw [hfeed] at h
    cases h
    exact feed_mayFail hfeed
  · rw [hfeed] at h
    obtain ⟨_ | stop, runs⟩ := plan
    · next stop =>
      cases stop with
      | refused reason => exact reason.elim
      | outside position =>
        cases h
        exact nofun
    · cases h

theorem launch_mayFail {task : Task} (h : w.launch p task = (.error e, w')) : p.MayFail e := by
  unfold launch at h
  split at h
  · cases h
    exact nofun
  · dsimp only at h
    split at h
    · next stop w₁ hresolve =>
      cases h
      exact resolve_mayFail hresolve
    · next extents pins w₁ hresolve =>
      have hsubmit : _ = Except.error e := congrArg Prod.fst h
      exact submitAll_mayFail (Prod.ext hsubmit rfl)

theorem sourceFile_mayFail {order : CopyOrder} (h : w.sourceFile p order = (.error e, w')) :
    p.MayFail e := by
  unfold sourceFile at h
  split at h
  · split at h
    · cases h
      exact nofun
    · split at h
      · next e' w₁ hopen =>
        cases h
        exact Ambient.openChecked_mayFail (liftAmbient_error hopen)
      · cases h
  · cases h

theorem acquire_error {handle : Handle} (h : w.acquire handle = (.error e, w')) :
    e = .notFound := by
  unfold acquire at h
  split at h
  · exact (Except.error.inj (congrArg Prod.fst h)).symm
  · cases h

theorem window_error {region : Region} {offset length : Nat}
    (h : w.window region offset length = (.error e, w')) : e = .invalidArgument := by
  unfold window at h
  split at h
  · cases h
  · exact (Except.error.inj (congrArg Prod.fst h)).symm

theorem prepare_mayFail {order : CopyOrder} (h : w.prepare p order = (.error e, w')) :
    p.MayFail e := by
  unfold prepare at h
  split at h
  · cases h
    exact nofun
  · split at h
    · next e' w₁ hacquire =>
      cases h
      obtain rfl := acquire_error hacquire
      exact nofun
    · split at h
      · next e' w₂ hwindow =>
        cases h
        obtain rfl := window_error hwindow
        exact nofun
      · split at h
        · next e' w₃ hfile =>
          cases h
          exact sourceFile_mayFail hfile
        · cases h

theorem copyAsync_mayFail {order : CopyOrder} (h : w.copyAsync p order = (.error e, w')) :
    p.MayFail e := by
  unfold copyAsync at h
  split at h
  · next e' w₁ hprepare =>
    cases h
    exact prepare_mayFail hprepare
  · dsimp only at h
    split at h
    · next e' w₂ hlaunch =>
      cases h
      exact launch_mayFail hlaunch
    · cases h

theorem copy_mayFail {order : CopyOrder} (h : (w.copy p order).1 = .returned (.error e)) :
    p.MayFail e := by
  unfold copy at h
  split at h
  · next e' w₁ hcopy =>
    obtain rfl : e' = e := Except.error.inj (Outcome.returned.inj h)
    exact copyAsync_mayFail hcopy
  · split at h <;> cases h

theorem pinMap_mayFail {handle : Handle} {base : GpuAddr} {length : Nat}
    (h : w.pinMap p handle base length = (.error e, w')) : p.MayFail e := by
  unfold pinMap at h
  dsimp only at h
  split at h
  · next e' hpin =>
    cases h
    exact Ambient.pin_mayFail (Prod.ext hpin rfl)
  · cases h

theorem enter_mayFail {region : Region} (h : w.enter p region = (.error e, w')) : p.MayFail e := by
  unfold enter at h
  split at h
  · cases h
    exact nofun
  · cases h

theorem map_mayFail {owner : Pid} {address : GpuAddr} {length : Nat}
    (h : w.map p owner address length = (.error e, w')) : p.MayFail e := by
  unfold map at h
  split at h
  · cases h
    exact nofun
  · dsimp only at h
    split at h
    · next e' w₁ hpin =>
      cases h
      exact pinMap_mayFail hpin
    · split at h
      · cases h
        exact nofun
      · split at h
        · cases h
          exact nofun
        · exact enter_mayFail h

theorem detach_error {handle : Handle} {now : Region → World ε → World ε} {later : Region → Rest}
    (h : w.detach handle now later = (.returned (.error e), w')) : e = .notFound := by
  unfold detach at h
  split at h
  · cases h
    rfl
  · dsimp only at h
    split at h <;> cases h

theorem teardown_error {handle : Handle} {cause : Cause}
    (h : (w.teardown p handle cause).1 = .returned (.error e)) : e = .notFound := by
  unfold teardown at h
  split at h
  · next e' w₁ hdetach =>
    cases h
    exact detach_error hdetach
  · exact detach_error (Prod.ext h rfl)

theorem info_error {handle : Handle} {capacity : Nat}
    (h : w.info p handle capacity = (.error e, w')) : e = .notFound := by
  unfold info at h
  split at h
  · next e' w₁ hacquire =>
    cases h
    exact acquire_error hacquire
  · cases h

theorem wait_error {id : TaskId} (h : (w.wait id).1 = .returned (.error e)) : e = .notFound := by
  unfold wait await at h
  dsimp only at h
  split at h <;> cases h
  rfl

theorem decodeCopy_error {b : CopyBlock} (h : w.decodeCopy b = (.error e, w')) :
    e = .invalidArgument := by
  unfold decodeCopy at h
  split at h <;> cases h
  rfl

/-- The error of an answer whose value is changed is that of the answer. -/
theorem error_of_map {α β : Type} {f : α → β} {answer : Except Error α}
    (h : answer.map f = .error e) : answer = .error e := by
  cases answer <;> cases h
  rfl

theorem checkFile_mayFail {descriptor : Int} (h : (w.checkFile p descriptor).1 = .error e) :
    p.MayFail e := by
  have hopen : (w.ambient.openChecked p w.core.config.hostPageSize descriptor).1 = .error e :=
    error_of_map h
  exact Ambient.openChecked_mayFail (Prod.ext hopen rfl)

theorem probe_mayFail {visit : PageProbe → Ambient ε → Ambient ε} {descriptor : Int}
    {offset length : Nat} (h : w.probe p visit descriptor offset length = (.error e, w')) :
    p.MayFail e := by
  unfold probe at h
  dsimp only at h
  split at h
  · next e' w₁ hopen =>
    cases h
    exact Ambient.openChecked_mayFail (liftAmbient_error hopen)
  · cases h

theorem error_of_map_returned {α β : Type} {f : α → β} {answer : Outcome (Except Error α)}
    (h : answer.map (·.map f) = .returned (.error e)) : answer = .returned (.error e) := by
  cases answer with
  | returned value => exact congrArg _ (error_of_map (Outcome.returned.inj h))
  | parked waiter => cases h

/-- A command that fails reports an error of the library's own, or one that the surroundings have
answered with. -/
theorem execute_mayFail {caller : Pid} {block : Block}
    (h : (w.execute p caller block).1 = .returned (.error e)) : p.MayFail e := by
  cases block with
  | checkFile descriptor =>
    exact checkFile_mayFail (error_of_map (Outcome.returned.inj h))
  | map b =>
    have hmap := error_of_map (Outcome.returned.inj h)
    exact map_mayFail (Prod.ext hmap rfl)
  | unmap handle =>
    obtain rfl := teardown_error (error_of_map_returned h)
    exact nofun
  | info b =>
    have hinfo := error_of_map (Outcome.returned.inj h)
    obtain rfl := info_error (Prod.ext hinfo rfl)
    exact nofun
  | copy b =>
    unfold execute at h
    dsimp only at h
    split at h
    · next e' w₁ hdecode =>
      cases h
      obtain rfl := decodeCopy_error hdecode
      exact nofun
    · exact copy_mayFail (error_of_map_returned h)
  | copyAsync b =>
    unfold execute at h
    dsimp only at h
    split at h
    · next e' w₁ hdecode =>
      cases h
      obtain rfl := decodeCopy_error hdecode
      exact nofun
    · have hcopy := error_of_map (Outcome.returned.inj h)
      exact copyAsync_mayFail (Prod.ext hcopy rfl)
  | wait task =>
    obtain rfl := wait_error (error_of_map_returned h)
    exact nofun
  | debug descriptor offset length =>
    have hprobe := error_of_map (Outcome.returned.inj h)
    exact probe_mayFail (Prod.ext hprobe rfl)

end World

/-! ## Statuses -/

/-- What a call returns in the end: at once, or when it comes back with a reply, from which `later`
makes the value; nothing as long as it is parked. -/
def Outcome.final {α : Type} (later : Reply → α) (back : Waiter → Option Reply) :
    Outcome α → Option α
  | returned value => some value
  | parked waiter => (back waiter).map later

/-- The status and the block of a command that has ended. -/
def Block.report (block : Block) : Except Error Block → Int × Block
  | .ok filled => (0, filled)
  | .error e => (e.errno, block)

theorem Block.report_eq_zero_iff {block : Block} {answer : Except Error Block} :
    (block.report answer).1 = 0 ↔
      (∃ filled, answer = .ok filled) ∨ answer = .error (.driverError 0) := by
  cases answer with
  | ok filled => exact iff_of_true rfl (.inl ⟨filled, rfl⟩)
  | error e =>
    refine (Error.errno_eq_zero_iff e).trans ⟨fun h => .inr (congrArg _ h), ?_⟩
    rintro (⟨filled, h⟩ | h)
    · cases h
    · exact Except.error.inj h

theorem Block.report_neg {block : Block} {answer : Except Error Block}
    (h : (block.report answer).1 ≠ 0) : (block.report answer).1 < 0 := by
  cases answer with
  | ok filled => exact absurd rfl h
  | error e => exact Error.errno_neg fun he => h ((Error.errno_eq_zero_iff e).2 he)

/-- A parked call does not fail. -/
theorem Outcome.of_final_error {α : Type} {answer : Outcome (Except Error α)} {later : Reply → α}
    {back : Waiter → Option Reply}
    (h : answer.final (fun r => .ok (later r)) back = some (.error e)) :
    answer = .returned (.error e) := by
  cases answer with
  | returned value => exact congrArg _ (Option.some.inj h)
  | parked waiter =>
    obtain ⟨reply, -, hreply⟩ := Option.map_eq_some_iff.1 h
    cases hreply

namespace World

variable {caller : Pid} {number : Nat} {block : Block} {w : World ε}

/-- A command is carried out if the number is that of its block. -/
theorem dispatch_own (h : CommandCode.ofNumber? number = some block.code) :
    w.dispatch p caller number block =
      match w.execute p caller block with
      | (.parked waiter, w) => (.parked waiter, w)
      | (.returned (.ok block), w) => (.returned (0, block), w)
      | (.returned (.error e), w) => w.failCommand number block e := by
  unfold dispatch
  rw [h]
  dsimp only
  exact if_neg (not_not.2 rfl)

theorem dispatch_ok {w' : World ε} {filled : Block}
    (hown : CommandCode.ofNumber? number = some block.code)
    (h : w.execute p caller block = (.returned (.ok filled), w')) :
    w.dispatch p caller number block = (.returned (0, filled), w') := by
  rw [dispatch_own hown, h]

theorem dispatch_error {w' : World ε} (hown : CommandCode.ofNumber? number = some block.code)
    (h : w.execute p caller block = (.returned (.error e), w')) :
    w.dispatch p caller number block = w'.failCommand number block e := by
  rw [dispatch_own hown, h]

theorem dispatch_parked {w' : World ε} {waiter : Waiter}
    (hown : CommandCode.ofNumber? number = some block.code)
    (h : w.execute p caller block = (.parked waiter, w')) :
    w.dispatch p caller number block = (.parked waiter, w') := by
  rw [dispatch_own hown, h]

theorem dispatch_own_final (h : CommandCode.ofNumber? number = some block.code)
    (back : Waiter → Option Reply) :
    (w.dispatch p caller number block).1.final block.settle back =
      ((w.execute p caller block).1.final (fun r => .ok (block.complete r)) back).map
        block.report := by
  rw [dispatch_own h]
  rcases w.execute p caller block with ⟨(e | filled) | waiter, w'⟩
  · rfl
  · rfl
  · show (back waiter).map block.settle = ((back waiter).map _).map block.report
    rw [Option.map_map]
    rfl

/-- Otherwise it is refused. -/
theorem dispatch_foreign (p : Platform ε) (caller : Pid) (w : World ε)
    (h : CommandCode.ofNumber? number ≠ some block.code) :
    ∃ refused, (refused = w ∨ refused = w.log (.wrongBlock number block.code)) ∧
      w.dispatch p caller number block = refused.failCommand number block .invalidArgument := by
  unfold dispatch
  cases hcode : CommandCode.ofNumber? number with
  | none => exact ⟨w, .inl rfl, rfl⟩
  | some code =>
    rw [hcode] at h
    have hne : code ≠ block.code := fun heq => h (congrArg some heq)
    dsimp only
    rw [if_pos hne]
    exact ⟨_, .inr rfl, rfl⟩

/-- **Statuses tell whether commands succeed.** Whatever the instance, its surroundings, the caller
and the command, and whatever a parked call comes back with:

* Dispatching waits exactly as long as the command itself does.
* The status is zero if and only if the number is that of the block's own command, and carrying the
  command out succeeds or fails with a foreign code of zero. In every other case it is negative.
* A failure with a foreign code is one that the surroundings have answered with. So if they never
  fail with code zero, the status is zero if and only if the number is that of the block's own
  command and carrying it out succeeds. -/
theorem dispatch_status (p : Platform ε) (caller : Pid) (number : Nat) (block : Block)
    (w : World ε) (back : Waiter → Option Reply) :
    let own := CommandCode.ofNumber? number = some block.code
    let executed := (w.execute p caller block).1.final (fun r => .ok (block.complete r)) back
    let returned := (w.dispatch p caller number block).1.final block.settle back
    (returned = none ↔ own ∧ executed = none) ∧
      (∀ status after, returned = some (status, after) →
        (status = 0 ↔ own ∧ ((∃ filled, executed = some (.ok filled)) ∨
          executed = some (.error (.driverError 0)))) ∧
        (status ≠ 0 → status < 0)) ∧
      (∀ code, executed = some (.error (.driverError code)) → p.Fails (.driverError code)) ∧
      (¬p.Fails (.driverError 0) → ∀ status after, returned = some (status, after) →
        (status = 0 ↔ own ∧ ∃ filled, executed = some (.ok filled))) := by
  intro own executed returned
  have hfails (code : Int) (h : executed = some (.error (.driverError code))) :
      p.Fails (.driverError code) :=
    execute_mayFail (Outcome.of_final_error h) rfl
  by_cases hown : own
  · have hreturned : returned = executed.map block.report := dispatch_own_final hown back
    have hstatus (status : Int) (after : Block) (h : returned = some (status, after)) :
        (status = 0 ↔ own ∧ ((∃ filled, executed = some (.ok filled)) ∨
          executed = some (.error (.driverError 0)))) ∧ (status ≠ 0 → status < 0) := by
      obtain ⟨answer, hanswer, hreport⟩ := Option.map_eq_some_iff.1 (hreturned.symm.trans h)
      obtain rfl : (block.report answer).1 = status := congrArg Prod.fst hreport
      rw [hanswer, Block.report_eq_zero_iff]
      exact ⟨by simp [hown], Block.report_neg⟩
    refine ⟨?_, hstatus, hfails, fun hp status after h => ?_⟩
    · rw [hreturned, Option.map_eq_none_iff]
      exact (and_iff_right hown).symm
    · have hzero : executed ≠ some (.error (.driverError 0)) := fun h => hp (hfails 0 h)
      rw [(hstatus status after h).1, or_iff_left hzero]
  · have hreturned : returned = some (Error.invalidArgument.errno, block) := by
      obtain ⟨refused, -, hdispatch⟩ := dispatch_foreign p caller w hown
      exact congrArg (fun r => r.1.final block.settle back) hdispatch
    have hstatus (status : Int) (after : Block) (h : returned = some (status, after)) :
        status ≠ 0 ∧ status < 0 := by
      rw [hreturned] at h
      obtain rfl : Error.invalidArgument.errno = status :=
        congrArg Prod.fst (Option.some.inj h)
      decide
    refine ⟨?_, fun status after h => ⟨?_, fun _ => (hstatus status after h).2⟩, hfails,
      fun _ status after h => ?_⟩
    · simp [hreturned, hown]
    · simp [hown, (hstatus status after h).1]
    · simp [hown, (hstatus status after h).1]

end World

/-- A bench whose pager fails the next pin with a code of its own. -/
def Bench.failingPin (code : Int) : World Bench :=
  ⟨.create {} {}, ⟨{ pager := { failNext := some (.driverError code) } }, []⟩⟩

namespace World

/-- A copy that has been parked ends with status zero. A map that fails with a positive code ends
with a negative status. -/
theorem dispatch_status_parked :
    let slow : World Bench := (World.map Bench.platform ⟨1⟩ ⟨0x10000⟩ 0x10000
      ⟨.create {} {}, ⟨{ memory := { ending := .manual } }, []⟩⟩).2
    let copy : CopyBlock :=
      { handle := 1, offset := 0, descriptor := -1, count := 1, chunks := [⟨0x6d, 0x5000, 0x1000⟩] }
    let map : Block := .map { address := 0x10000, length := 0x10000 }
    (slow.execute Bench.platform ⟨1⟩ (.copy copy)).1 = .parked ⟨0⟩ ∧
      (slow.dispatch Bench.platform ⟨1⟩ 0x84 (.copy copy)).1.final (Block.copy copy).settle
        (fun _ => some (.copied ⟨1⟩)) = some (0, .copy { copy with task := 1 }) ∧
      ((Bench.failingPin 5).dispatch Bench.platform ⟨1⟩ 0x81 map).1.final map.settle
        (fun _ => none) = some (-5, map) ∧
      Bench.platform.Fails (.driverError 5) := by
  intro slow copy map
  have hparked : (slow.execute Bench.platform ⟨1⟩ (.copy copy)).1 = .parked ⟨0⟩ := by
    decide +kernel
  have hcopied : (slow.dispatch Bench.platform ⟨1⟩ 0x84 (.copy copy)).1.final
      (Block.copy copy).settle (fun _ => some (.copied ⟨1⟩)) =
        some (0, .copy { copy with task := 1 }) := by decide +kernel
  have hfailed : ((Bench.failingPin 5).dispatch Bench.platform ⟨1⟩ 0x81 map).1.final map.settle
      (fun _ => none) = some (-5, map) := by decide +kernel
  obtain ⟨-, -, hfails, -⟩ := dispatch_status Bench.platform ⟨1⟩ 0x81 map (Bench.failingPin 5)
    fun _ => none
  exact ⟨hparked, hcopied, hfailed, hfails 5 (by decide +kernel)⟩

/-- A map that fails with the foreign code zero has the status of success. -/
theorem dispatch_failed_zero :
    let w := Bench.failingPin 0
    let block : Block := .map { address := 0x10000, length := 0x10000 }
    CommandCode.ofNumber? 0x81 = some block.code ∧
      (w.execute Bench.platform ⟨1⟩ block).1 = .returned (.error (.driverError 0)) ∧
      (w.dispatch Bench.platform ⟨1⟩ 0x81 block).1 = .returned (0, block) ∧
      (w.dispatch Bench.platform ⟨1⟩ 0x81 block).2.core.mappings.isEmpty := by
  decide +kernel

end World

end PeerDma
