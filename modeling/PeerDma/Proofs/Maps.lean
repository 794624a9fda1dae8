import PeerDma.Proofs.Pins

/-!
# Maps

A map is given a handle, asks for a pin, looks at the page table that it gets, and registers the
region. It can fail at each of these points, and its eviction notice may fire before the region is
registered. Whatever happens, it either registers one region or leaves the regions as they were and
the pin handed back.

* `Mappings.Ready`, `Reach.ready`: what a map relies on. Every registry of a run has it, at every
  moment, also while other maps are in progress.
* `World.MapEnds`, `World.map_ends`: the five ways for a map to end.
* `Reach.map_all_or_nothing`: a map registers a region that spans its range, or changes nothing.
* `Reach.map_revoked`: what becomes of a map whose notice fires. If its page table is of use, the
  pin is handed back as evicted; else as unmapped, and the eviction is not counted.
-/

namespace PeerDma

variable {ε : Type} {p : Platform ε} {stray : Prop} {m m' : Moment ε}

/-! ## Words -/

namespace Word

theorem lowBits_eq {a align : Nat} (h : isPowerOfTwo align) : lowBits a align = a % align := by
  obtain ⟨k, rfl⟩ := isPowerOfTwo_iff.1 h
  exact Nat.and_two_pow_sub_one_eq_mod a k

theorem lowBits_le (a align : Nat) : lowBits a align ≤ a := Nat.and_le_left

/-- A product that saturates is beyond every word. -/
theorem mulSat_lt_iff {a b n : Nat} (hn : n < bound) : mulSat a b < n ↔ a * b < n := by
  unfold mulSat
  omega

end Word

/-! ## Regions and their ranges -/

/-- Whether a page table covers `length` bytes: its code names a page size, and there are enough
pages of that size. -/
def PageTable.Covers (t : PageTable) (length : Nat) : Prop :=
  ∃ size, PageSize.ofCode? t.code = some size ∧ length ≤ t.pages.length * size.bytes

/-- A region spans the range of a map: its base is the address rounded down to a multiple of
`bound`, and every byte of the range has a physical address. -/
structure Region.Spans (r : Region) (bound : Nat) (address : GpuAddr) (length : Nat) : Prop where
  aligned : bound ∣ r.base.raw
  starts : r.base.raw + r.offset = address.raw
  within : r.offset < bound
  backed : ∀ a, address.raw ≤ a → a < address.raw + length →
    ∃ phys, r.layout.physAt? (a - r.base.raw) = some phys
  length : r.length = length

namespace Mappings

/-- The region that a map makes of a page table. -/
def regionFor (m : Mappings) (owner : Pid) (address : GpuAddr) (length : Nat) (size : PageSize)
    (table : PageTable) : Region :=
  ⟨m.begin.1, owner, address.alignDown m.bound, address.offsetWithin m.bound, length, size, table⟩

theorem spans_regionFor {m : Mappings} (hb : Word.isPowerOfTwo m.bound) (owner : Pid)
    {address : GpuAddr} {length : Nat} (hword : address.raw < Word.bound) {size : PageSize}
    {table : PageTable}
    (hcovers : address.offsetWithin m.bound + length ≤ table.pages.length * size.bytes) :
    (m.regionFor owner address length size table).Spans m.bound address length := by
  have hbase : (address.alignDown m.bound).raw = address.raw - address.raw % m.bound :=
    Word.alignDown_eq hword hb
  have hoffset : address.offsetWithin m.bound = address.raw % m.bound := Word.lowBits_eq hb
  have hle := Nat.mod_le address.raw m.bound
  refine ⟨?_, ?_, ?_, fun a hfirst hlast => Option.isSome_iff_exists.1 ?_, rfl⟩
  · show m.bound ∣ (address.alignDown m.bound).raw
    rw [hbase]
    exact Nat.dvd_sub_mod address.raw
  · show (address.alignDown m.bound).raw + address.offsetWithin m.bound = address.raw
    omega
  · show address.offsetWithin m.bound < m.bound
    rw [hoffset]
    exact Nat.mod_lt _ (Word.isPowerOfTwo_pos hb)
  · refine (Layout.physAt?_isSome_iff (size.bytes_pos : 0 < size.bytes)).2 ?_
    show a - (address.alignDown m.bound).raw < table.pages.toArray.size * size.bytes
    rw [List.size_toArray]
    omega

/-! ## What a map relies on -/

/-- The alignment is a power of two, and the next handle names neither a region nor a map in
progress. -/
structure Ready (m : Mappings) : Prop where
  aligned : Word.isPowerOfTwo m.bound
  unused : m.use? m.begin.1 = none
  idle : m.begin.1 ∉ m.pendingHandles

/-- The alignment is a power of two, and the maps in progress have handles that have been given
out. -/
structure Issued (m : Mappings) : Prop where
  aligned : Word.isPowerOfTwo m.bound
  pending : ∀ h ∈ m.pendingHandles, h.id < m.handles.next

theorem Issued.mono {m m' : Mappings} (hi : m.Issued) (hbound : m'.bound = m.bound)
    (hpending : m'.pendingHandles ⊆ m.pendingHandles) (hnext : m.handles.next ≤ m'.handles.next) :
    m'.Issued where
  aligned := hbound ▸ hi.aligned
  pending h hh := Nat.lt_of_lt_of_le (hi.pending h (hpending hh)) hnext

theorem Issued.begin {m : Mappings} (hi : m.Issued) : m.begin.2.Issued where
  aligned := hi.aligned
  pending h hh := by
    have hbegin : m.begin.2.pendingHandles = m.pendingHandles ++ [m.begin.1] := List.map_append
    rw [hbegin] at hh
    rcases List.mem_append.1 hh with hold | hnew
    · exact Nat.lt_succ_of_lt (hi.pending h hold)
    · rw [List.mem_singleton.1 hnew]
      exact Nat.lt_succ_self _

theorem pendingHandles_revoke? {m m' : Mappings} {h : Handle} (hr : m.revoke? h = some m') :
    m'.pendingHandles = m.pendingHandles := by
  unfold revoke? at hr
  split at hr
  · obtain rfl := Option.some.inj hr
    unfold pendingHandles
    rw [List.map_map]
    refine List.map_congr_left fun i _ => ?_
    dsimp only [Function.comp_apply]
    split <;> rfl
  · cases hr

end Mappings

/-- Maps in progress have handles that have been given out, at every moment. -/
theorem Move.issued (h : Move p stray m m') (hi : m.world.core.mappings.Issued) :
    m'.world.core.mappings.Issued := by
  cases h with
  | beginMap w k => exact hi.begin
  | revoke w k h map found =>
    have hpending := Mappings.pendingHandles_revoke? found
    obtain ⟨pending, rfl⟩ := Mappings.revoke?_eq_some found
    exact hi.mono rfl (hpending ▸ List.Subset.refl _) (Nat.le_refl _)
  | finishMap w k h =>
    exact hi.mono rfl (List.map_subset _ (List.filter_subset_self _)) (Nat.le_refl _)
  | acquire w k h use map found =>
    obtain ⟨u, -, hr⟩ := Mappings.acquire?_replaces found
    obtain ⟨-, rfl⟩ | ⟨-, -, rfl⟩ := hr.cases <;> exact { hi with }
  | put w k h map found =>
    obtain ⟨u, u', -, hr⟩ := Mappings.put?_eq_some found
    obtain ⟨-, rfl⟩ | ⟨-, -, rfl⟩ := hr.cases <;> exact { hi with }
  | putLast w k h waiter map found =>
    obtain ⟨u, u', -, hr⟩ := Mappings.put?_eq_some found
    obtain ⟨-, rfl⟩ | ⟨-, -, rfl⟩ := hr.cases <;> exact { hi with }
  | detach w k h use map cause found unused =>
    obtain ⟨-, rfl⟩ := Mappings.detach?_eq_some found
    dsimp only
    rw [World.unpinRegion_core]
    exact { hi with }
  | park w k h use map rest found used tears =>
    obtain ⟨-, rfl⟩ := Mappings.detach?_eq_some found
    exact { hi with }
  | resume w k s =>
    dsimp only
    rw [World.resume_core]
    cases s.rest <;> exact { hi with }
  | _ => exact { hi with }

theorem Moves.accounted (h : Moves p stray m m') (hi : m.Accounted) : m'.Accounted :=
  h.keeps (fun _ _ hm => hm.accounted) hi

theorem Reach.issued {s : System ε} (h : Reach p (fun _ => True) s)
    (hm : Moves p True s.moment m) : m.world.core.mappings.Issued := by
  have hmove (m m' : Moment ε) (hm : Move p True m m') :
      m.world.core.mappings.Issued → m'.world.core.mappings.Issued := hm.issued
  refine hm.keeps hmove (h.any_invariant (fun placement config x => ⟨?_, nofun⟩) hmove)
  exact Word.isPowerOfTwo_iff.2 ⟨config.boundShift, Nat.one_shiftLeft _⟩

/-- **The registry is ready for a map** at every moment of a run. -/
theorem Reach.ready {s : System ε} (h : Reach p (fun _ => True) s) (hm : Moves p True s.moment m) :
    m.world.core.mappings.Ready where
  aligned := (h.issued hm).aligned
  unused := (hm.accounted h.any_accounted).keyed.regions.use?_eq_none (Nat.le_refl _)
  idle hh := Nat.lt_irrefl _ ((h.issued hm).pending _ hh)

/-! ## A map in progress -/

namespace Mappings

/-- The mappings once the next handle has been given out. -/
def handOut (m : Mappings) : Mappings := { m with handles := m.handles.allocate.2 }

/-- The mappings with a map in progress. -/
def begun (m : Mappings) (h : Handle) (revoked : Bool) : Mappings :=
  { m with pending := m.pending ++ [⟨h, revoked⟩] }

variable {m : Mappings} {h : Handle}

theorem revoke?_begun (hn : h ∉ m.pendingHandles) (b : Bool) :
    (m.begun h b).revoke? h = some (m.begun h true) := by
  have hold : m.pending.map (fun i => if i.handle = h then { i with revoked := true } else i) =
      m.pending := by
    refine (List.map_congr_left fun i hi => if_neg ?_).trans (List.map_id _)
    rintro rfl
    exact hn (List.mem_map_of_mem hi)
  unfold revoke? begun
  dsimp only
  rw [if_pos (by simp), List.map_append, hold]
  simp

theorem finish_begun (hn : h ∉ m.pendingHandles) (b : Bool) : (m.begun h b).finish h = (b, m) := by
  have hne : ∀ i ∈ m.pending, i.handle ≠ h := by
    rintro i hi rfl
    exact hn (List.mem_map_of_mem hi)
  have hany : (m.pending.any fun i => i.handle = h && i.revoked) = false :=
    List.any_eq_false.2 fun i hi => by simp [hne i hi]
  have hold : m.pending.filter (·.handle ≠ h) = m.pending :=
    List.filter_eq_self.2 fun i hi => decide_eq_true (hne i hi)
  unfold finish begun
  dsimp only
  rw [List.any_append, hany, List.filter_append, hold]
  simp

end Mappings

namespace World

variable (p : Platform ε)

/-- From `w` to `w'` the regions become `m`, and the notable events `new` are added, the last one
first. Nothing else changes in the instance. -/
structure Leads (w w' : World ε) (m : Mappings) (new : List Event) : Prop where
  core : w'.core = { w.core with mappings := m }
  events : w'.events = new ++ w.events

namespace Leads

variable {w w' w'' : World ε} {m m' : Mappings} {new new' : List Event}

theorem trans (h : Leads w w' m new) (h' : Leads w' w'' m' new') :
    Leads w w'' m' (new' ++ new) where
  core := by rw [h'.core, h.core]
  events := by rw [h'.events, h.events, List.append_assoc]

theorem log (w : World ε) {e : Log.Entry} (he : e.isPlain) :
    Leads w (w.log e) w.core.mappings [] :=
  ⟨rfl, events_log w he⟩

theorem setMappings (w : World ε) (m : Mappings) : Leads w (w.setMappings m) m [] := ⟨rfl, rfl⟩

theorem rollBack (h : Handle) (base : GpuAddr) (table : PageTable) (cause : Cause) (w : World ε) :
    Leads w (w.rollBack p h base table cause) w.core.mappings
      [.unpinned h base table cause] := by
  refine ⟨rollBack_core p h base table cause w, ?_⟩
  unfold World.rollBack
  dsimp only
  cases (w.ambient.unpin p h base table cause).1 <;> rfl

theorem logRegion (r : Region) (w : World ε) : Leads w (w.logRegion r) w.core.mappings [] := by
  refine ⟨logRegion_core r w, ?_⟩
  have hfold (f : World ε → PhysAddr × Nat → World ε) (hf : ∀ w x, (f w x).events = w.events)
      (l : List (PhysAddr × Nat)) (w : World ε) : (l.foldl f w).events = w.events := by
    induction l generalizing w with
    | nil => rfl
    | cons x rest ih => exact (ih _).trans (hf w x)
  exact (hfold _ (fun w _ => events_log w rfl) _ _).trans (events_log w rfl)

end Leads

variable {p} {w : World ε} {m : Mappings} {h : Handle} {b : Bool}

theorem pinMap_fails {base : GpuAddr} {length : Nat} {e : Error}
    (ha : (p.pin h base length w.ambient.outside).1 = .error e) :
    ∃ w', w.pinMap p h base length = (.error e, w') ∧ Leads w w' w.core.mappings [] := by
  unfold pinMap Ambient.pin
  dsimp only
  rw [ha]
  exact ⟨_, rfl, rfl, rfl⟩

/-- The notice of a pin, if it fires, meets the map that has asked for it. -/
theorem pinMap_granted (hn : h ∉ m.pendingHandles) (hw : w.core.mappings = m.begun h false)
    {base : GpuAddr} {length : Nat} {grant : PinGrant}
    (ha : (p.pin h base length w.ambient.outside).1 = .ok grant) :
    ∃ w', w.pinMap p h base length = (.ok grant.table, w') ∧
      Leads w w' (m.begun h grant.revoked) [.pinned h base grant.table] := by
  unfold pinMap Ambient.pin
  dsimp only
  rw [ha]
  dsimp only
  refine ⟨_, rfl, ?_⟩
  cases hr : grant.revoked with
  | true =>
    unfold evict
    dsimp only
    rw [hw, Mappings.revoke?_begun hn]
    exact ⟨rfl, rfl⟩
  | false => exact ⟨by rw [← hw]; rfl, rfl⟩

theorem finishMap_begun (hn : h ∉ m.pendingHandles) (hw : w.core.mappings = m.begun h b) :
    w.finishMap h = (b, w.setMappings m) := by
  unfold finishMap
  rw [hw, Mappings.finish_begun hn]

theorem refuseTable_begun (hn : h ∉ m.pendingHandles) (hw : w.core.mappings = m.begun h b)
    (base : GpuAddr) (table : PageTable) {entry : Log.Entry} (he : entry.isPlain) :
    ∃ w', w.refuseTable p h base table entry = (.error .invalidArgument, w') ∧
      Leads w w' m [.unpinned h base table .unmap] := by
  refine ⟨_, rfl, ?_⟩
  rw [finishMap_begun (w := w.log entry) hn hw]
  exact ((Leads.log w he).trans (.setMappings _ m)).trans (.rollBack p h base table .unmap _)

/-- A region whose pin has been revoked is not registered. -/
theorem enter_revoked {r : Region} (hn : r.handle ∉ m.pendingHandles)
    (hw : w.core.mappings = m.begun r.handle true) :
    ∃ w', w.enter p r = (.error .badAddress, w') ∧
      Leads w w' m.countEvicted [.unpinned r.handle r.base r.table .evicted] := by
  have hlog := Leads.logRegion r w
  have hw' : (w.logRegion r).core.mappings = m.begun r.handle true := by rw [hlog.core, hw]
  unfold enter
  rw [finishMap_begun hn hw']
  refine ⟨_, rfl, ?_⟩
  have hback : Leads w _ m [.unpinned r.handle r.base r.table .evicted] :=
    (hlog.trans (.setMappings _ m)).trans
      ((Leads.log _ (e := .evictedWhileMapping r.handle) rfl).trans
        (.rollBack p r.handle r.base r.table .evicted _))
  have hcount := congrArg (fun c : Core => c.mappings.countEvicted) hback.core
  dsimp only at hcount
  rw [← hcount]
  exact hback.trans (.setMappings _ _)

theorem enter_begun {r : Region} (hn : r.handle ∉ m.pendingHandles)
    (hw : w.core.mappings = m.begun r.handle false) :
    ∃ w', w.enter p r = (.ok r.mapping, w') ∧
      Leads w w' (m.register r).countMapped [] := by
  have hlog := Leads.logRegion r w
  have hw' : (w.logRegion r).core.mappings = m.begun r.handle false := by rw [hlog.core, hw]
  unfold enter
  rw [finishMap_begun hn hw']
  exact ⟨_, rfl, (hlog.trans (.setMappings _ m)).trans (.setMappings _ _)⟩

/-! ## How a map ends -/

section

variable (p : Platform ε) (owner : Pid) (address : GpuAddr) (length : Nat)

/-- What the pager answers to a map. -/
def pinAnswer (w : World ε) : Except Error PinGrant :=
  let m := w.core.mappings
  (p.pin m.begin.1 (address.alignDown m.bound) (address.offsetWithin m.bound + length)
    w.ambient.outside).1

/-- The ways for a map to end: its answer, the regions after it, and its notable events, the last
one first. -/
inductive MapEnds (w : World ε) : Except Error Mapping → Mappings → List Event → Prop
  /-- There is no such range. The pager is not asked. -/
  | noRange (bad : length = 0 ∨ Word.bound ≤ address.raw + length) :
      MapEnds w (.error .invalidArgument) w.core.mappings []
  | notPinned {e : Error} (range : ¬(length = 0 ∨ Word.bound ≤ address.raw + length))
      (fails : w.pinAnswer p address length = .error e) :
      MapEnds w (.error e) w.core.mappings.handOut []
  /-- The page table is of no use, and nobody asks whether the pin has been revoked. -/
  | refused {grant : PinGrant} (range : ¬(length = 0 ∨ Word.bound ≤ address.raw + length))
      (pinned : w.pinAnswer p address length = .ok grant)
      (short : ¬grant.table.Covers (address.offsetWithin w.core.mappings.bound + length)) :
      MapEnds w (.error .invalidArgument) w.core.mappings.handOut
        [.unpinned w.core.mappings.begin.1 (address.alignDown w.core.mappings.bound) grant.table
          .unmap,
        .pinned w.core.mappings.begin.1 (address.alignDown w.core.mappings.bound) grant.table]
  | lost {grant : PinGrant} (range : ¬(length = 0 ∨ Word.bound ≤ address.raw + length))
      (pinned : w.pinAnswer p address length = .ok grant)
      (covers : grant.table.Covers (address.offsetWithin w.core.mappings.bound + length))
      (revoked : grant.revoked = true) :
      MapEnds w (.error .badAddress) w.core.mappings.handOut.countEvicted
        [.unpinned w.core.mappings.begin.1 (address.alignDown w.core.mappings.bound) grant.table
          .evicted,
        .pinned w.core.mappings.begin.1 (address.alignDown w.core.mappings.bound) grant.table]
  | entered {grant : PinGrant} {size : PageSize}
      (range : ¬(length = 0 ∨ Word.bound ≤ address.raw + length))
      (pinned : w.pinAnswer p address length = .ok grant)
      (code : PageSize.ofCode? grant.table.code = some size)
      (covers : address.offsetWithin w.core.mappings.bound + length ≤
        grant.table.pages.length * size.bytes)
      (kept : grant.revoked = false) :
      MapEnds w (.ok (w.core.mappings.regionFor owner address length size grant.table).mapping)
        (w.core.mappings.handOut.register
          (w.core.mappings.regionFor owner address length size grant.table)).countMapped
        [.pinned w.core.mappings.begin.1 (address.alignDown w.core.mappings.bound) grant.table]

end

variable {owner : Pid} {address : GpuAddr} {length : Nat}

/-- A map whose pin fails. -/
theorem map_unpinned (hrange : ¬(length = 0 ∨ Word.bound ≤ address.raw + length)) {e : Error}
    {w₁ : World ε}
    (hpin : (w.setMappings w.core.mappings.begin.2).pinMap p w.core.mappings.begin.1
      (address.alignDown w.core.mappings.bound)
      (address.offsetWithin w.core.mappings.bound + length) = (.error e, w₁)) :
    w.map p owner address length = (.error e, (w₁.finishMap w.core.mappings.begin.1).2.log
      (.pinFailed (address.alignDown w.core.mappings.bound)
        (address.offsetWithin w.core.mappings.bound + length) e)) := by
  unfold map
  rw [if_neg hrange]
  dsimp only
  rw [hpin]

/-- A map that gets a pin looks at its page table. -/
theorem map_pinned (hrange : ¬(length = 0 ∨ Word.bound ≤ address.raw + length))
    {table : PageTable} {w₁ : World ε}
    (hpin : (w.setMappings w.core.mappings.begin.2).pinMap p w.core.mappings.begin.1
      (address.alignDown w.core.mappings.bound)
      (address.offsetWithin w.core.mappings.bound + length) = (.ok table, w₁)) :
    w.map p owner address length = w₁.judge p owner w.core.mappings.begin.1
      (address.alignDown w.core.mappings.bound) (address.offsetWithin w.core.mappings.bound) length
      table := by
  unfold map
  rw [if_neg hrange]
  dsimp only
  rw [hpin]
  rfl

/-- A page table that does not cover the range is refused. -/
theorem judge_short (owner : Pid) {base : GpuAddr} {offset : Nat} {table : PageTable}
    (hword : offset + length < Word.bound) (hshort : ¬table.Covers (offset + length)) :
    ∃ entry : Log.Entry, entry.isPlain ∧
      w.judge p owner h base offset length table = w.refuseTable p h base table entry := by
  unfold judge
  cases hcode : PageSize.ofCode? table.code with
  | none => exact ⟨_, rfl, rfl⟩
  | some size =>
    have hlt : Word.mulSat table.pages.length size.bytes < offset + length :=
      (Word.mulSat_lt_iff hword).2 (Nat.not_le.1 fun hle => hshort ⟨size, hcode, hle⟩)
    exact ⟨_, rfl, if_pos hlt⟩

/-- One that covers the range makes a region. -/
theorem judge_covers {base : GpuAddr} {offset : Nat} {table : PageTable} {size : PageSize}
    (hword : offset + length < Word.bound) (hcode : PageSize.ofCode? table.code = some size)
    (hcovers : offset + length ≤ table.pages.length * size.bytes) :
    w.judge p owner h base offset length table =
      w.enter p ⟨h, owner, base, offset, length, size, table⟩ := by
  unfold judge
  rw [hcode]
  exact if_neg fun hlt => Nat.not_lt.2 hcovers ((Word.mulSat_lt_iff hword).1 hlt)

/-- Every map ends in one of these ways, whatever the pager answers and whichever other maps are in
progress. -/
theorem map_ends (p : Platform ε)
    (hn : w.core.mappings.begin.1 ∉ w.core.mappings.pendingHandles)
    (owner : Pid) (address : GpuAddr) (length : Nat) :
    ∃ m new, MapEnds p owner address length w (w.map p owner address length).1 m new ∧
      Leads w (w.map p owner address length).2 m new := by
  by_cases hrange : length = 0 ∨ Word.bound ≤ address.raw + length
  · rw [map_invalid p owner hrange]
    exact ⟨_, _, .noRange hrange, .log w rfl⟩
  -- The map is in progress from here on.
  have hnew : w.core.mappings.begin.1 ∉ w.core.mappings.handOut.pendingHandles := hn
  have hbegin : Leads w (w.setMappings w.core.mappings.begin.2)
      (w.core.mappings.handOut.begun w.core.mappings.begin.1 false) [] := .setMappings _ _
  cases ha : w.pinAnswer p address length with
  | error e =>
    obtain ⟨w₁, hpin, hleads⟩ :=
      pinMap_fails (w := w.setMappings w.core.mappings.begin.2) (p := p) ha
    rw [map_unpinned hrange hpin,
      finishMap_begun hnew (congrArg Core.mappings (hbegin.trans hleads).core)]
    exact ⟨_, _, .notPinned hrange ha,
      ((hbegin.trans hleads).trans (.setMappings _ _)).trans (.log _ rfl)⟩
  | ok grant =>
    obtain ⟨w₁, hpin, hleads⟩ :=
      pinMap_granted (w := w.setMappings w.core.mappings.begin.2) hnew rfl ha
    replace hleads := hbegin.trans hleads
    have hmappings : w₁.core.mappings =
        w.core.mappings.handOut.begun w.core.mappings.begin.1 grant.revoked :=
      congrArg Core.mappings hleads.core
    have hword : address.offsetWithin w.core.mappings.bound + length < Word.bound := by
      have := Word.lowBits_le address.raw w.core.mappings.bound
      unfold GpuAddr.offsetWithin
      omega
    rw [map_pinned hrange hpin]
    by_cases hcovers : grant.table.Covers (address.offsetWithin w.core.mappings.bound + length)
    · obtain ⟨size, hcode, hle⟩ := hcovers
      have hjudge : w₁.judge p owner w.core.mappings.begin.1 _ _ length grant.table =
          w₁.enter p (w.core.mappings.regionFor owner address length size grant.table) :=
        judge_covers hword hcode hle
      rw [hjudge]
      cases hrevoked : grant.revoked with
      | true =>
        obtain ⟨w₂, henter, hback⟩ := enter_revoked (p := p)
          (r := w.core.mappings.regionFor owner address length size grant.table) hnew
          (hrevoked ▸ hmappings)
        rw [henter]
        exact ⟨_, _, .lost hrange ha ⟨size, hcode, hle⟩ hrevoked, hleads.trans hback⟩
      | false =>
        obtain ⟨w₂, henter, hentered⟩ := enter_begun (p := p)
          (r := w.core.mappings.regionFor owner address length size grant.table) hnew
          (hrevoked ▸ hmappings)
        rw [henter]
        exact ⟨_, _, .entered hrange ha hcode hle hrevoked, hleads.trans hentered⟩
    · obtain ⟨entry, hplain, hjudge⟩ :=
        judge_short (p := p) (w := w₁) owner hword hcovers
      obtain ⟨w₂, hrefuse, hback⟩ := refuseTable_begun (p := p) hnew hmappings
        (address.alignDown w.core.mappings.bound) grant.table hplain
      rw [hjudge, hrefuse]
      exact ⟨_, _, .refused hrange ha hcovers, hleads.trans hback⟩

namespace MapEnds

variable {answer : Except Error Mapping} {new : List Event}

theorem isOk_iff (h : MapEnds p owner address length w answer m new) :
    (∃ mapping, answer = .ok mapping) ↔ 0 < length ∧ address.raw + length < Word.bound ∧
      ∃ grant, w.pinAnswer p address length = .ok grant ∧
        grant.table.Covers (address.offsetWithin w.core.mappings.bound + length) ∧
        grant.revoked = false := by
  cases h with
  | noRange bad => exact ⟨nofun, fun ⟨hpos, hfits, _⟩ => by omega⟩
  | notPinned range fails =>
    refine ⟨nofun, fun ⟨_, _, grant, hgrant, _⟩ => ?_⟩
    cases fails.symm.trans hgrant
  | refused range pinned short =>
    refine ⟨nofun, fun ⟨_, _, grant, hgrant, hcovers, _⟩ => ?_⟩
    obtain rfl := Except.ok.inj (pinned.symm.trans hgrant)
    exact absurd hcovers short
  | lost range pinned covers revoked =>
    refine ⟨nofun, fun ⟨_, _, grant, hgrant, _, hkept⟩ => ?_⟩
    obtain rfl := Except.ok.inj (pinned.symm.trans hgrant)
    cases revoked.symm.trans hkept
  | entered range pinned code covers kept =>
    exact ⟨fun _ => ⟨by omega, by omega, _, pinned, ⟨_, code, covers⟩, kept⟩, fun _ => ⟨_, rfl⟩⟩

/-- No map changes the regions that drain, or another map in progress. -/
theorem kept (h : MapEnds p owner address length w answer m new) :
    m.draining = w.core.mappings.draining ∧ m.pending = w.core.mappings.pending := by
  cases h <;> exact ⟨rfl, rfl⟩

/-- A map that fails has registered nothing. -/
theorem undone {e : Error} (h : MapEnds p owner address length w (.error e) m new) :
    m.table = w.core.mappings.table := by
  cases h <;> rfl

/-- A map that fails hands its pin back, if it has got one. -/
theorem handsBack (h : MapEnds p owner address length w answer m new) :
    new.flatMap Event.handsBack = if answer.isOk then [] else new.flatMap Event.pins := by
  cases h <;> rfl

/-- A map asks for a pin if there is such a range. -/
theorem pins (h : MapEnds p owner address length w answer m new) :
    new.flatMap Event.pins = if 0 < length ∧ address.raw + length < Word.bound then
      (w.pinAnswer p address length).toOption.toList.map fun grant =>
        (w.core.mappings.begin.1, address.alignDown w.core.mappings.bound, grant.table)
      else [] := by
  cases h with
  | noRange bad => rw [if_neg (by omega)]; rfl
  | notPinned range fails => rw [if_pos (by omega), fails]; rfl
  | refused range pinned short => rw [if_pos (by omega), pinned]; rfl
  | lost range pinned covers revoked => rw [if_pos (by omega), pinned]; rfl
  | entered range pinned code covers kept => rw [if_pos (by omega), pinned]; rfl

/-- A map that succeeds registers a region that spans its range, and nothing else. -/
theorem registered (hw : w.core.mappings.Ready) {mapping : Mapping}
    (h : MapEnds p owner address length w (.ok mapping) m new) :
    ∃ r : Region, r.mapping = mapping ∧ r.handle = w.core.mappings.begin.1 ∧ r.owner = owner ∧
      r.Spans w.core.mappings.bound address length ∧
      ∀ other, m.table.find? other = if other = w.core.mappings.begin.1 then
        some { region := r } else w.core.mappings.table.find? other := by
  cases h with
  | entered range pinned code covers kept =>
    exact ⟨_, rfl, rfl, rfl,
      Mappings.spans_regionFor hw.aligned owner (by omega) covers,
      fun other => Sharded.find?_insert ..⟩

end MapEnds

end World

/-! ## After any run -/

/-- **Maps are all or nothing.** Take any moment of any run, and a map of `length` bytes at
`address`, whatever the pager answers to it.

* It succeeds if and only if the range has a byte and ends within the address space, the pager
  grants a pin, the page table has a known code and covers the range from its rounded-down base on,
  and the notice of the pin has not fired meanwhile.
* The pager is asked only for such a range. What it grants is handed back by the map, once, if and
  only if the map fails.
* If the map succeeds, it has registered one region, and nothing else changes: under a handle that
  has named nothing before, without a reference, and spanning the range.
* If it fails, the regions, their references and the maps in progress are as before. -/
theorem Reach.map_all_or_nothing {s : System ε} (hs : Reach p (fun _ => True) s)
    (hm : Moves p True s.moment m) (owner : Pid) (address : GpuAddr) (length : Nat) :
    let w := m.world
    let before := w.core.mappings
    let h : Handle := ⟨before.handles.next⟩
    let base := address.alignDown before.bound
    let mapped := address.offsetWithin before.bound + length
    let pinned := (p.pin h base mapped w.ambient.outside).1
    let granted := if 0 < length ∧ address.raw + length < Word.bound then
      pinned.toOption.toList.map fun grant => (h, base, grant.table) else []
    let answer := (w.map p owner address length).1
    let w' := (w.map p owner address length).2
    let after := w'.core.mappings
    ((∃ mapping, answer = .ok mapping) ↔ 0 < length ∧ address.raw + length < Word.bound ∧
      ∃ grant, pinned = .ok grant ∧ grant.table.Covers mapped ∧ grant.revoked = false) ∧
    w'.ambient.history.flatMap Event.pins = granted ++ w.ambient.history.flatMap Event.pins ∧
    w'.ambient.history.flatMap Event.handsBack =
      (if answer.isOk then [] else granted) ++ w.ambient.history.flatMap Event.handsBack ∧
    after.draining = before.draining ∧ after.pending = before.pending ∧
    (∀ e, answer = .error e → after.table = before.table) ∧
    ∀ mapping, answer = .ok mapping → ∃ r : Region, r.mapping = mapping ∧ r.handle = h ∧
      r.owner = owner ∧ r.Spans before.bound address length ∧
      before.use? h = none ∧ h ∉ before.pendingHandles ∧
      h ∉ (w.ambient.history.flatMap Event.pins).map Prod.fst ∧
      ∀ other, after.table.find? other =
        if other = h then some { region := r } else before.table.find? other := by
  intro w before h base mapped pinned granted answer w' after
  have hready : before.Ready := hs.ready hm
  obtain ⟨m', new, hends, hleads⟩ := World.map_ends p hready.idle owner address length
  have hrecord {α : Type} (f : Event → List α) : w'.record f = new.flatMap f ++ w.record f := by
    unfold World.record
    rw [hleads.events, List.flatMap_append]
  have hafter : after = m' := congrArg Core.mappings hleads.core
  have hpins : new.flatMap Event.pins = granted := hends.pins
  have hback := hends.handsBack
  rw [hpins] at hback
  rw [hafter]
  refine ⟨hends.isOk_iff, ?_, ?_, hends.kept.1, hends.kept.2, fun e he => ?_, fun mapping he => ?_⟩
  · rw [← World.record_pins, ← World.record_pins, hrecord, hpins]
  · rw [← World.record_handsBack, ← World.record_handsBack, hrecord, hback]
  · exact (he ▸ hends : World.MapEnds p owner address length w (.error e) m' new).undone
  · obtain ⟨r, hmapping, hh, howner, hspans, hfind⟩ :=
      (he ▸ hends : World.MapEnds p owner address length w (.ok mapping) m' new).registered hready
    have hunheard : h ∉ (w.ambient.history.flatMap Event.pins).map Prod.fst := by
      rw [← World.record_pins]
      intro hmem
      obtain ⟨pin, hpin, he⟩ := List.mem_map.1 hmem
      have hlt := (hm.accounted hs.any_accounted).onRecord.bound.1 pin hpin
      rw [he] at hlt
      exact Nat.lt_irrefl _ hlt
    exact ⟨r, hmapping, hh, howner, hspans, hready.unused, hready.idle, hunheard, hfind⟩

/-- A bench with one region. -/
def Bench.oneRegion : System Bench :=
  (System.mk (.fresh {} {} {}) []).perform platform (.map ⟨1⟩ ⟨0x10000⟩ 0x10000)

/-- A range that starts and ends in the middle of a page. -/
theorem Reach.map_all_or_nothing_unaligned :
    Reach Bench.platform (fun _ => True) Bench.oneRegion ∧
      (Bench.oneRegion.world.map Bench.platform ⟨7⟩ ⟨0x100012345⟩ 0x20000).1 =
        .ok ⟨⟨2⟩, .size64K, 3⟩ ∧
      ∃ r : Region, (Bench.oneRegion.world.map Bench.platform ⟨7⟩ ⟨0x100012345⟩
          0x20000).2.core.mappings.table.find? ⟨2⟩ = some { region := r } ∧
        r.Spans 0x10000 ⟨0x100012345⟩ 0x20000 := by
  have hs : Reach Bench.platform (fun _ => True) Bench.oneRegion :=
    .call (@start _ _ _ {} {} {} _ rfl) _ trivial
  have hok : (Bench.oneRegion.world.map Bench.platform ⟨7⟩ ⟨0x100012345⟩ 0x20000).1 =
      .ok ⟨⟨2⟩, .size64K, 3⟩ := by decide +kernel
  have hnext : Bench.oneRegion.world.core.mappings.handles.next = 2 := by decide +kernel
  have hbound : Bench.oneRegion.world.core.mappings.bound = 0x10000 := by decide +kernel
  have hmap := map_all_or_nothing hs .refl ⟨7⟩ ⟨0x100012345⟩ 0x20000
  dsimp only [System.moment] at hmap
  obtain ⟨-, -, -, -, -, -, hentered⟩ := hmap
  obtain ⟨r, -, -, -, hspans, -, -, -, hfind⟩ := hentered _ hok
  rw [hbound] at hspans
  exact ⟨hs, hok, r, (hfind ⟨2⟩).trans (if_pos (by rw [hnext])), hspans⟩

/-- **A notice that fires during a map.** Take any moment of any run, and a map whose pin the pager
grants and whose notice fires before the pager has answered.

* The map fails, the regions are as before, and the pin is handed back, once.
* If the page table is of use, the map fails with a bad address, the pin is handed back as evicted,
  and the eviction is counted.
* If the code of the table is unknown, or the table is too short, nobody asks whether the notice has
  fired: the map fails for the table, the pin is handed back as unmapped, and no eviction is
  counted. -/
theorem Reach.map_revoked {s : System ε} (hs : Reach p (fun _ => True) s)
    (hm : Moves p True s.moment m) (owner : Pid) {address : GpuAddr} {length : Nat}
    {grant : PinGrant} (hrange : 0 < length ∧ address.raw + length < Word.bound)
    (hgrant : m.world.pinAnswer p address length = .ok grant) (hrevoked : grant.revoked = true) :
    let w := m.world
    let before := w.core.mappings
    let h : Handle := ⟨before.handles.next⟩
    let base := address.alignDown before.bound
    let mapped := address.offsetWithin before.bound + length
    let answer := (w.map p owner address length).1
    let w' := (w.map p owner address length).2
    let after := w'.core.mappings
    (∃ e, answer = .error e) ∧ after.table = before.table ∧ after.draining = before.draining ∧
      ∃ cause, w'.events =
          .unpinned h base grant.table cause :: .pinned h base grant.table :: w.events ∧
        (grant.table.Covers mapped → answer = .error .badAddress ∧ cause = .evicted ∧
          after.stats.evicted = before.stats.evicted + 1) ∧
        (¬grant.table.Covers mapped → answer = .error .invalidArgument ∧ cause = .unmap ∧
          after.stats = before.stats) := by
  intro w before h base mapped answer w' after
  obtain ⟨m', new, hends, hleads⟩ := World.map_ends p (hs.ready hm).idle owner address length
  have hafter : after = m' := congrArg Core.mappings hleads.core
  have hevents : w'.events = new ++ w.events := hleads.events
  rw [hafter, hevents]
  change World.MapEnds p owner address length w answer m' new at hends
  generalize answer = answer at hends
  cases hends with
  | noRange bad => omega
  | notPinned range fails => cases hgrant.symm.trans fails
  | refused range pinned short =>
    obtain rfl := Except.ok.inj (hgrant.symm.trans pinned)
    exact ⟨⟨_, rfl⟩, rfl, rfl, .unmap, rfl, fun hcovers => absurd hcovers short,
      fun _ => ⟨rfl, rfl, rfl⟩⟩
  | lost range pinned covers revoked =>
    obtain rfl := Except.ok.inj (hgrant.symm.trans pinned)
    exact ⟨⟨_, rfl⟩, rfl, rfl, .evicted, rfl, fun _ => ⟨rfl, rfl, rfl⟩,
      fun hshort => absurd covers hshort⟩
  | entered range pinned code covers kept =>
    obtain rfl := Except.ok.inj (hgrant.symm.trans pinned)
    cases hrevoked.symm.trans kept

/-- A map that loses its range, with a page table of use. -/
theorem Reach.map_revoked_taking :
    let w : World Bench := .fresh {} {} Bench.taking
    let table : PageTable := ⟨0x10000, 1, [⟨0x4000000000⟩]⟩
    Reach Bench.platform (fun _ => True) ⟨w, []⟩ ∧ (0 < 0x10000 ∧ 0x10000 + 0x10000 < Word.bound) ∧
      w.pinAnswer Bench.platform ⟨0x10000⟩ 0x10000 = .ok ⟨table, true⟩ ∧
      (w.map Bench.platform ⟨7⟩ ⟨0x10000⟩ 0x10000).1 = .error .badAddress ∧
      (w.map Bench.platform ⟨7⟩ ⟨0x10000⟩ 0x10000).2.events =
        [.unpinned ⟨1⟩ ⟨0x10000⟩ table .evicted, .pinned ⟨1⟩ ⟨0x10000⟩ table] ∧
      (w.map Bench.platform ⟨7⟩ ⟨0x10000⟩ 0x10000).2.core.mappings.stats.evicted = 1 := by
  intro w table
  have hs : Reach Bench.platform (fun _ => True) ⟨w, []⟩ := @start _ _ _ {} {} Bench.taking _ rfl
  have hgrant : w.pinAnswer Bench.platform ⟨0x10000⟩ 0x10000 = .ok ⟨table, true⟩ := by
    decide +kernel
  have hrange : 0 < 0x10000 ∧ 0x10000 + 0x10000 < Word.bound := by decide
  have hbase : (GpuAddr.mk 0x10000).alignDown w.core.mappings.bound = ⟨0x10000⟩ := by
    decide +kernel
  have hmap := map_revoked hs .refl ⟨7⟩ hrange hgrant rfl
  dsimp only [System.moment] at hmap
  obtain ⟨-, -, -, cause, hevents, hlost, -⟩ := hmap
  obtain ⟨hanswer, rfl, hcount⟩ := hlost ⟨.size64K, rfl, by decide +kernel⟩
  rw [hbase] at hevents
  exact ⟨hs, hrange, hgrant, hanswer, hevents, hcount⟩

/-- A bench whose pager revokes its next pin while it is being made, and whose next page table has a
code that nobody knows. -/
def Bench.garbled : Bench := { pager := { revokeNext := true, script := some { code := some 7 } } }

/-- A map that loses its range and gets such a table: the pin is handed back as unmapped, and the
eviction is not counted. -/
theorem Reach.map_revoked_garbled :
    let w : World Bench := .fresh {} {} Bench.garbled
    let w' := (w.map Bench.platform ⟨4242⟩ ⟨0x100000000⟩ 0x10000).2
    let table : PageTable := ⟨0x10000, 7, [⟨0x4000000000⟩]⟩
    Reach Bench.platform (fun _ => True) ⟨w, []⟩ ∧
      w.pinAnswer Bench.platform ⟨0x100000000⟩ 0x10000 = .ok ⟨table, true⟩ ∧
      w'.events =
        [.unpinned ⟨1⟩ ⟨0x100000000⟩ table .unmap, .pinned ⟨1⟩ ⟨0x100000000⟩ table] ∧
      w'.core.mappings.stats.evicted = w.core.mappings.stats.evicted :=
  ⟨@start _ _ _ {} {} Bench.garbled _ rfl, by decide +kernel, by decide +kernel,
    by decide +kernel⟩

end PeerDma
