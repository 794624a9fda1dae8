import PeerDma.Proofs.Traces

/-!
# Tokens

A submission takes the next token and is in flight until the token is used up. Nothing else that
the library does gives tokens out or uses them up: not the cleanup of tasks, whoever asks for it, nor
what a request does before it submits.

* `World.cleanup_flights`, `World.finish_flights`: cleanups leave submissions in flight alone.
* `World.land_flights`, `World.landAll_flights`: tokens that are used up.
* `World.resolve_flights`, `World.supplied_flights`: what requests do before they submit.
* `World.submit_flights`: one submission.
-/

namespace PeerDma

variable {ε : Type} (p : Platform ε)

namespace World

/-! ## Cleanups -/

theorem wake?_flights (waiter : Option Waiter) (w : World ε) :
    (w.wake? p waiter).core.flights = w.core.flights := by
  cases waiter with
  | none => rfl
  | some waiter =>
    have hcore : (w.wake p waiter).core = _ := Continues.resumeAll_core p _ (w.unpark waiter)
    exact (congrArg Core.flights hcore).trans rfl

theorem put_flights (h : Handle) (w : World ε) : (w.put p h).core.flights = w.core.flights := by
  unfold put
  rcases w.core.mappings.put? h with _ | ⟨woken, m⟩
  · rfl
  · exact wake?_flights p woken _

theorem cleanup_flights (id : TaskId) (w : World ε) :
    (w.cleanup p id).2.core.flights = w.core.flights := by
  unfold cleanup
  rcases w.core.tasks.remove? id with _ | ⟨task, tasks⟩
  · rfl
  · exact (wake?_flights p task.slot.occupant _).trans (put_flights p _ _)

theorem cleanupAll_flights (ids : List TaskId) (w : World ε) :
    (w.cleanupAll p ids).core.flights = w.core.flights := by
  unfold cleanupAll
  induction ids generalizing w with
  | nil => rfl
  | cons id rest ih => exact (ih _).trans (cleanup_flights p id w)

theorem finish_flights (id : TaskId) (w : World ε) :
    (w.finish p id).core.flights = w.core.flights := by
  unfold finish
  dsimp only
  split
  · exact cleanup_flights p id _
  · rfl

/-! ## Submissions that end -/

/-- The end of a submission takes it out of flight, and puts nothing there. -/
theorem land_flights (token : Token) (w : World ε) : (w.land p token).core.flights =
    { w.core.flights with flights := w.core.flights.flights.filter (·.token ≠ token) } := by
  unfold land
  rcases hl : w.core.flights.land? token with _ | ⟨f, flights⟩
  · dsimp only
    rw [Flights.land?_eq_none hl]
  · obtain ⟨-, -, rfl⟩ := Flights.land?_eq_some hl
    exact finish_flights p f.task _

theorem landAll_flights (tokens : List Token) (w : World ε) : (w.landAll p tokens).core.flights =
    { w.core.flights with flights := w.core.flights.flights.filter (·.token ∉ tokens) } := by
  unfold landAll
  induction tokens generalizing w with
  | nil => simp
  | cons token rest ih =>
    rw [List.foldl_cons, ih, land_flights]
    simp only [List.filter_filter, List.mem_cons, not_or, Bool.decide_and, Bool.and_comm]

/-! ## Requests -/

theorem pinHost_flights (address count : Nat) (w : World ε) :
    (w.pinHost p address count).2.core.flights = w.core.flights := by
  have hclean := cleanupAll_flights p (p.pinHost address count w.ambient.outside).1.cleanups
    (w.setOutside (p.pinHost address count w.ambient.outside).2)
  unfold pinHost
  dsimp only
  cases (p.pinHost address count w.ambient.outside).1.pages <;> exact hclean

theorem resolveHost_flights (pageSize address length : Nat) (w : World ε) :
    (w.resolveHost p pageSize address length).2.core.flights = w.core.flights := by
  unfold resolveHost
  cases Word.add? address length with
  | none => rfl
  | some stop =>
    dsimp only
    generalize Word.alignDown address pageSize = first
    generalize Word.ceilDiv (stop - first) pageSize = count
    have hpin := pinHost_flights p first count w
    generalize w.pinHost p first count = answer at hpin ⊢
    obtain ⟨e | pages, w'⟩ := answer
    · exact hpin
    · dsimp only
      split <;> exact hpin

theorem resolve_flights (file : Option File) (chunks : List Chunk) (w : World ε) :
    (w.resolve p file chunks).2.core.flights = w.core.flights := by
  induction chunks generalizing w with
  | nil => rfl
  | cons chunk rest ih =>
    have hchunk : (w.resolveChunk p file chunk).2.core.flights = w.core.flights := by
      cases chunk with
      | host address length => exact resolveHost_flights p _ address length w
      | file offset length => rfl
    rw [World.resolve]
    generalize w.resolveChunk p file chunk = answer at hchunk ⊢
    obtain ⟨e | ⟨extents, pins⟩, w₁⟩ := answer
    · exact hchunk
    · have hrest := (ih w₁).trans hchunk
      dsimp only
      generalize w₁.resolve p file rest = answer at hrest ⊢
      obtain ⟨e | ⟨more, others⟩, w₂⟩ := answer <;> exact hrest

theorem supplied_flights (task : Task) (extents : List Extent) (pins : List PinSet) (w : World ε) :
    (w.supplied p task extents pins).core.flights = w.core.flights := by
  unfold supplied retain
  cases w.core.tasks.retain? task.id pins <;> rfl

/-- A submission takes the next token. It is in flight unless its channel uses the token up at
once. -/
theorem submit_flights (id : TaskId) (run : Run) (w : World ε) :
    (w.submit p id run).2.core.flights = ⟨w.core.flights.next + 1,
      (w.nextFlight id run :: w.core.flights.flights).filter
        (·.token ∉ (w.submitAnswer p run).1.ended)⟩ := by
  have hoffered : (w.offered p id run).core.flights =
      ⟨w.core.flights.next + 1, w.nextFlight id run :: w.core.flights.flights⟩ :=
    cleanupAll_flights p _ _
  have hended {w' : World ε} (h : w'.core.flights = (w.offered p id run).core.flights) :
      (w'.landAll p (w.submitAnswer p run).1.ended).core.flights = ⟨w.core.flights.next + 1,
        (w.nextFlight id run :: w.core.flights.flights).filter
          (·.token ∉ (w.submitAnswer p run).1.ended)⟩ := by
    rw [landAll_flights, h, hoffered]
  rw [submit_eq]
  cases (w.submitAnswer p run).1.verdict <;> exact hended rfl

end World

end PeerDma
