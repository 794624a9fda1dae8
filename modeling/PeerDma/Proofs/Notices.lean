import PeerDma.Proofs.Calls

/-!
# Notices and maps

The eviction notice of a pin fires while its range is being mapped, while its region is registered,
or after that. Only in the second case does it take a region down. In the first one, the map that is
in progress learns of it and ends without a region.

* `World.evict_pending` and its neighbours: what a notice does, by what it meets.
* `World.losesMap`: whether a map ends because the device takes its range back meanwhile.
* `Mappings.Ends`, `World.map_core`: what a map does to an instance.
-/

namespace PeerDma

variable {ε : Type}

/-- The handles of the maps in progress. -/
def Mappings.pendingHandles (m : Mappings) : List Handle := m.pending.map PendingMap.handle

theorem Mappings.pending_eq_nil {m : Mappings} (h : m.pendingHandles = []) : m.pending = [] :=
  List.map_eq_nil_iff.1 h

namespace World

variable (p : Platform ε) {w : World ε} {h : Handle} {use : RegionUse} {mappings : Mappings}

/-! ## What a notice does -/

theorem evict_pending (hp : h ∈ w.core.mappings.pendingHandles) :
    ∃ mappings, w.evict p h = (.returned (), w.setMappings mappings) ∧
      mappings.use? = w.core.mappings.use? := by
  obtain ⟨i, hi, hh⟩ := List.mem_map.1 hp
  have hany : w.core.mappings.pending.any (·.handle = h) :=
    List.any_eq_true.2 ⟨i, hi, by simpa using hh⟩
  unfold evict Mappings.revoke?
  rw [if_pos hany]
  exact ⟨_, rfl, rfl⟩

theorem revoke?_eq_none (hn : h ∉ w.core.mappings.pendingHandles) :
    w.core.mappings.revoke? h = none := by
  refine if_neg fun hany => hn ?_
  obtain ⟨i, hi, he⟩ := List.any_eq_true.1 hany
  exact List.mem_map.2 ⟨i, hi, by simpa using he⟩

theorem evict_unlisted (hn : h ∉ w.core.mappings.pendingHandles)
    (hd : w.core.mappings.detach? h = none) :
    w.evict p h = (.returned (), w.log (.evictionAfterRelease h)) := by
  unfold evict detach
  rw [revoke?_eq_none hn, hd]

theorem evict_unused (hn : h ∉ w.core.mappings.pendingHandles)
    (hd : w.core.mappings.detach? h = some (use, mappings)) (hu : use.refs = 0) :
    w.evict p h = (.returned (), (w.setMappings mappings).unpinEvicted p use.region) := by
  unfold evict detach
  rw [revoke?_eq_none hn, hd]
  dsimp only
  rw [if_pos hu]

theorem evict_used (hn : h ∉ w.core.mappings.pendingHandles)
    (hd : w.core.mappings.detach? h = some (use, mappings)) (hu : use.refs ≠ 0) :
    w.evict p h = (.parked w.core.parking.fresh.1,
      (w.parkTeardown use mappings (.eviction use.region)).log (.teardownWaits h)) := by
  unfold evict detach
  rw [revoke?_eq_none hn, hd]
  dsimp only
  rw [if_neg hu]
  rfl

theorem unpinEvicted_core (r : Region) (w : World ε) :
    (w.unpinEvicted p r).core =
      { w.core with mappings := (w.core.mappings.forget r.handle).countEvicted } := by
  show { (w.unpinRegion p r .evicted).core with
    mappings := (w.unpinRegion p r .evicted).core.mappings.countEvicted } = _
  rw [unpinRegion_core]

/-- A region that is registered and wanted back, with no map in progress: it is unpinned if nobody
uses it, and else the notice waits. -/
theorem evict_core (hn : w.core.mappings.pendingHandles = [])
    (hf : w.core.mappings.table.find? h = some use) :
    (w.evict p h).2.core = (if use.refs = 0 then
      { w.core with mappings := ({ w.core.mappings with
        table := w.core.mappings.table.erase h }.forget use.region.handle).countEvicted }
      else (w.parkTeardown use { w.core.mappings with
        table := w.core.mappings.table.erase h } (.eviction use.region)).core) := by
  have hpending : h ∉ w.core.mappings.pendingHandles := hn ▸ List.not_mem_nil
  have hd : w.core.mappings.detach? h =
      some (use, { w.core.mappings with table := w.core.mappings.table.erase h }) := by
    unfold Mappings.detach?
    rw [hf]
    rfl
  split
  · next hu =>
    rw [evict_unused p hpending hd hu]
    exact unpinEvicted_core p use.region _
  · next hu =>
    rw [evict_used p hpending hd hu]
    rfl

/-! ## What a map does -/

/-- Whether the device takes the range of a map back while it is being pinned. -/
def revokes (address : GpuAddr) (length : Nat) (w : World ε) : Bool :=
  let m := w.core.mappings
  match (p.pin m.begin.1 (address.alignDown m.bound) (address.offsetWithin m.bound + length)
    w.ambient.outside).1 with
  | .error _ => false
  | .ok grant => grant.revoked

/-- Whether a map fails because the device takes its range back meanwhile. -/
def losesMap (owner : Pid) (address : GpuAddr) (length : Nat) (w : World ε) : Bool :=
  w.revokes p address length &&
    match (w.map p owner address length).1 with
    | .error e => e == .badAddress
    | .ok _ => false

end World

/-- Whether the page table of a region covers it. -/
def Region.Covered (r : Region) : Prop :=
  r.mappedLength ≤ Word.mulSat r.pages.length r.pageSize.bytes

/-- How a map ends that had mappings `m` but for itself: with which mappings, and whether it lost its
range to the device. -/
inductive Mappings.Ends (m : Mappings) : Mappings → Bool → Prop
  | failed : Ends m m false
  /-- The loss counts as an eviction. -/
  | lost : Ends m m.countEvicted true
  /-- The page table of a region that is registered covers it. -/
  | entered (r : Region) (covered : r.Covered) : Ends m (m.register r).countMapped false

/-- A map that fails for another reason does not lose its range, even if the device has it back. -/
theorem Mappings.Ends.refused (m : Mappings) (revoked : Bool) : m.Ends m (revoked && false) :=
  (Bool.and_false revoked).symm ▸ .failed

theorem Mappings.Ends.handles {m m' : Mappings} {lost : Bool} (h : m.Ends m' lost) :
    m'.handles = m.handles := by
  cases h <;> rfl

namespace World

variable (p : Platform ε) {w : World ε} {h : Handle}

theorem rollBack_core (h : Handle) (base : GpuAddr) (table : PageTable) (cause : Cause)
    (w : World ε) : (w.rollBack p h base table cause).core = w.core := by
  unfold rollBack
  dsimp only
  split <;> rfl

theorem logRegion_core (r : Region) (w : World ε) : (w.logRegion r).core = w.core := by
  have hfold (f : World ε → PhysAddr × Nat → World ε) (hf : ∀ w x, (f w x).core = w.core)
      (l : List (PhysAddr × Nat)) (w : World ε) : (l.foldl f w).core = w.core := by
    induction l generalizing w with
    | nil => rfl
    | cons e rest ih => exact (ih _).trans (hf w e)
  refine (hfold _ ?_ r.pages.zipIdx (w.log (.mapped r))).trans rfl
  exact fun _ _ => rfl

/-- The end of the only map in progress. -/
theorem finishMap_eq {b : Bool} (hw : w.core.mappings.pending = [⟨h, b⟩]) :
    w.finishMap h = (b, w.setMappings { w.core.mappings with pending := [] }) := by
  unfold finishMap Mappings.finish
  simp [hw]

/-- The pin of the only map in progress: the notice, if it fires, meets the map. -/
theorem pinMap_core (hw : w.core.mappings.pending = [⟨h, false⟩]) (base : GpuAddr) (length : Nat) :
    (w.pinMap p h base length).1 =
        (p.pin h base length w.ambient.outside).1.map PinGrant.table ∧
      (w.pinMap p h base length).2.core = { w.core with mappings := { w.core.mappings with
        pending := [⟨h, match (p.pin h base length w.ambient.outside).1 with
          | .error _ => false
          | .ok grant => grant.revoked⟩] } } := by
  have hsame : w.core = { w.core with mappings := { w.core.mappings with
      pending := [⟨h, false⟩] } } := by rw [← hw]
  unfold pinMap Ambient.pin
  dsimp only
  rcases (p.pin h base length w.ambient.outside).1 with e | grant
  · exact ⟨rfl, hsame⟩
  · refine ⟨rfl, ?_⟩
    dsimp only
    split
    · next hr =>
      unfold evict Mappings.revoke?
      simp [hw, hr, setMappings]
    · next hr =>
      rw [show grant.revoked = false by simpa using hr]
      exact hsame

/-- The end of a map whose page table is of no use. -/
theorem refuseTable_core {b : Bool} (hw : w.core.mappings.pending = [⟨h, b⟩]) (base : GpuAddr)
    (table : PageTable) (entry : Log.Entry) :
    (w.refuseTable p h base table entry).1 = .error .invalidArgument ∧
      (w.refuseTable p h base table entry).2.core =
        { w.core with mappings := { w.core.mappings with pending := [] } } := by
  refine ⟨rfl, ?_⟩
  unfold refuseTable
  rw [finishMap_eq (w := w.log entry) hw]
  exact rollBack_core p ..

/-- The end of a map that has got a page table. -/
theorem enter_core {b : Bool} {r : Region} (hw : w.core.mappings.pending = [⟨r.handle, b⟩]) :
    b = true ∧ (w.enter p r).1 = .error .badAddress ∧ (w.enter p r).2.core =
        { w.core with mappings := { w.core.mappings with pending := [] }.countEvicted } ∨
      b = false ∧ (w.enter p r).1 = .ok r.mapping ∧ (w.enter p r).2.core = { w.core with
        mappings := ({ w.core.mappings with pending := [] }.register r).countMapped } := by
  have hcore := logRegion_core r w
  unfold enter
  rw [finishMap_eq (w := w.logRegion r) (hcore ▸ hw)]
  cases b with
  | true =>
    refine .inl ⟨rfl, rfl, ?_⟩
    dsimp only [setMappings]
    rw [rollBack_core, hcore]
    rfl
  | false =>
    refine .inr ⟨rfl, rfl, ?_⟩
    dsimp only [setMappings]
    rw [hcore]

/-- The end of a map that the device has answered with page table `table`. -/
def judge (owner : Pid) (h : Handle) (base : GpuAddr) (offset length : Nat) (table : PageTable)
    (w : World ε) : Except Error Mapping × World ε :=
  match PageSize.ofCode? table.code with
  | none => w.refuseTable p h base table (.unknownPageSize table.code)
  | some pageSize =>
    if Word.mulSat table.pages.length pageSize.bytes < offset + length then
      w.refuseTable p h base table (.shortTable table.pages.length (offset + length))
    else w.enter p ⟨h, owner, base, offset, length, pageSize, table⟩

/-- How a map with handle `h` answers, with table `t` before and `t'` after: an error leaves no region
behind. -/
def Answers (h : Handle) (t t' : Sharded Handle RegionUse) : Except Error Mapping → Prop
  | .error _ => t' = t
  | .ok mapping => mapping.handle = h

/-- Only a map that enters its region can lose it, and then the device has the range back. -/
theorem judge_core {b : Bool} (hw : w.core.mappings.pending = [⟨h, b⟩]) (owner : Pid)
    (base : GpuAddr) (offset length : Nat) (table : PageTable) :
    ∃ m, (w.judge p owner h base offset length table).2.core = { w.core with mappings := m } ∧
      Mappings.Ends { w.core.mappings with pending := [] } m
        (b && match (w.judge p owner h base offset length table).1 with
          | .error e => e == .badAddress
          | .ok _ => false) ∧
      Answers h w.core.mappings.table m.table (w.judge p owner h base offset length table).1 := by
  have hrefuse (entry : Log.Entry) :
      ∃ m, (w.refuseTable p h base table entry).2.core = { w.core with mappings := m } ∧
        Mappings.Ends { w.core.mappings with pending := [] } m
          (b && match (w.refuseTable p h base table entry).1 with
            | .error e => e == .badAddress
            | .ok _ => false) ∧
        Answers h w.core.mappings.table m.table (w.refuseTable p h base table entry).1 := by
    obtain ⟨hanswer, hcore⟩ := refuseTable_core p hw base table entry
    rw [hanswer]
    exact ⟨_, hcore, .refused _ b, rfl⟩
  unfold judge
  rcases PageSize.ofCode? table.code with _ | pageSize
  · exact hrefuse _
  dsimp only
  split
  · exact hrefuse _
  next hcovers =>
  rcases enter_core p (r := ⟨h, owner, base, offset, length, pageSize, table⟩) hw with
    ⟨rfl, hanswer, hcore⟩ | ⟨rfl, hanswer, hcore⟩
  · refine ⟨_, hcore, ?_⟩
    rw [hanswer]
    exact ⟨.lost, rfl⟩
  · refine ⟨_, hcore, .entered _ (Nat.not_lt.1 hcovers), ?_⟩
    rw [hanswer]
    exact rfl

/-- What a map of a valid range does to an instance that has no other in progress. -/
theorem map_answers (owner : Pid) {address : GpuAddr} {length : Nat}
    (hw : w.core.mappings.pending = [])
    (hvalid : ¬(length = 0 ∨ Word.bound ≤ address.raw + length)) :
    ∃ m, (w.map p owner address length).2.core = { w.core with mappings := m } ∧
      Mappings.Ends { w.core.mappings with handles := w.core.mappings.handles.allocate.2 } m
        (w.losesMap p owner address length) ∧
      Answers w.core.mappings.begin.1 w.core.mappings.table m.table
        (w.map p owner address length).1 := by
  unfold losesMap revokes map
  dsimp only
  rw [if_neg hvalid]
  -- Between the handle that the map takes and the region that it may leave, the map is in progress.
  have hbegin : (w.setMappings w.core.mappings.begin.2).core.mappings.pending =
      [⟨w.core.mappings.begin.1, false⟩] := by
    show w.core.mappings.pending ++ [_] = _
    rw [hw]
    rfl
  have hover : { w.core.mappings with handles := w.core.mappings.handles.allocate.2 } =
      { w.core.mappings.begin.2 with pending := [] } := by
    rw [← hw]
    rfl
  rw [hover]
  generalize address.alignDown w.core.mappings.bound = base
  generalize address.offsetWithin w.core.mappings.bound = offset
  generalize w.core.mappings.begin.1 = h at hbegin ⊢
  obtain ⟨hanswer, hcore⟩ := pinMap_core p hbegin base (offset + length)
  replace hanswer : _ = (p.pin h base (offset + length) w.ambient.outside).1.map _ := hanswer
  replace hcore : _ = { w.core with
    mappings := { w.core.mappings.begin.2 with
      pending := [⟨h, match (p.pin h base (offset + length) w.ambient.outside).1 with
        | .error _ => false
        | .ok grant => grant.revoked⟩] } } := hcore
  generalize (w.setMappings w.core.mappings.begin.2).pinMap p h base (offset + length) = pinned
    at hanswer hcore ⊢
  obtain ⟨answer, w₂⟩ := pinned
  dsimp only at hanswer hcore
  generalize (p.pin h base (offset + length) w.ambient.outside).1 = verdict at hanswer hcore ⊢
  have hpending := congrArg (fun c => c.mappings.pending) hcore
  cases verdict with
  | error e =>
    obtain rfl : answer = .error e := hanswer
    refine ⟨_, ?_, .failed, rfl⟩
    dsimp only
    rw [finishMap_eq hpending]
    exact congrArg (fun c : Core => { c with mappings := { c.mappings with pending := [] } }) hcore
  | ok grant =>
    obtain rfl : answer = .ok grant.table := hanswer
    obtain ⟨m, hjudged, hends⟩ := judge_core p hpending owner base offset length grant.table
    rw [hcore] at hjudged hends
    exact ⟨m, hjudged, hends⟩

theorem map_invalid (owner : Pid) {address : GpuAddr} {length : Nat}
    (hinvalid : length = 0 ∨ Word.bound ≤ address.raw + length) :
    w.map p owner address length = (.error .invalidArgument, w.log (.badMapping address length)) := by
  unfold map
  rw [if_pos hinvalid]

/-- What a map does to an instance that has no other in progress. -/
theorem map_core (owner : Pid) (address : GpuAddr) (length : Nat)
    (hw : w.core.mappings.pending = []) :
    ∃ handles m, (w.map p owner address length).2.core = { w.core with mappings := m } ∧
      Mappings.Ends { w.core.mappings with handles } m (w.losesMap p owner address length) := by
  by_cases hvalid : length = 0 ∨ Word.bound ≤ address.raw + length
  · unfold losesMap
    rw [map_invalid p owner hvalid]
    exact ⟨w.core.mappings.handles, _, rfl, .refused _ _⟩
  · obtain ⟨m, hcore, hends, -⟩ := map_answers p owner hw hvalid
    exact ⟨_, m, hcore, hends⟩

end World

end PeerDma
