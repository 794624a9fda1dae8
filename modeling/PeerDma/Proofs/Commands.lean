import Mathlib.Logic.ExistsUnique
import PeerDma.Proofs.Statuses

/-!
# Commands are calls

A command asks for one call of the library, with a request that its block encodes. Dispatching it
does what that call does and reports what it answers, and nothing else happens. A command that makes
no request, because its number or its block is wrong, leaves the instance alone.

* `Action`, `World.act`: the calls that commands stand for.
* `Block.Asks`, `Block.Malformed`: which call a block asks for, and which blocks ask for none.
* `Block.Shows`: what a block shows of an answer, field by field, and what it keeps.
* `Chunk.mapM_decode_eq_ok_iff`, `CopyBlock.order_eq_ok_iff`: decoding finds the request if there is
  one.
* `World.execute_direct`: a command does what its call does.
* `World.dispatch_direct`: the whole of it.
-/

namespace PeerDma

variable {ε : Type} {p : Platform ε} {w w' : World ε}

/-! ## Requests -/

/-- A call that a command can stand for. -/
inductive Action where
  | checkFile (descriptor : Int)
  | map (owner : Pid) (address : GpuAddr) (length : Nat)
  | unmap (handle : Handle)
  | info (handle : Handle) (capacity : Nat)
  | copy (order : CopyOrder)
  | copyAsync (order : CopyOrder)
  | wait (task : TaskId)
  | probe (descriptor : Int) (offset length : Nat)

/-- What such a call answers. -/
inductive Answer where
  | done
  | mapping (mapping : Mapping)
  | info (info : RegionInfo)
  | task (id : TaskId)
  deriving DecidableEq

/-- What such a call answers when it has been parked. -/
def Answer.ofReply : Reply → Answer
  | .done => .done
  | .copied id => .task id

/-- The call, made directly. -/
def World.act (p : Platform ε) (action : Action) (w : World ε) :
    Outcome (Except Error Answer) × World ε :=
  match action with
  | .checkFile descriptor =>
    let (answer, w) := w.checkFile p descriptor
    (.returned (answer.map fun _ => .done), w)
  | .map owner address length =>
    let (answer, w) := w.map p owner address length
    (.returned (answer.map .mapping), w)
  | .unmap handle =>
    let (answer, w) := w.teardown p handle .unmap
    (answer.map (·.map fun _ => .done), w)
  | .info handle capacity =>
    let (answer, w) := w.info p handle capacity
    (.returned (answer.map .info), w)
  | .copy order =>
    let (answer, w) := w.copy p order
    (answer.map (·.map .task), w)
  | .copyAsync order =>
    let (answer, w) := w.copyAsync p order
    (.returned (answer.map .task), w)
  | .wait task =>
    let (answer, w) := w.wait task
    (answer.map (·.map fun _ => .done), w)
  | .probe descriptor offset length =>
    let (answer, w) := w.probe p World.logProbe descriptor offset length
    (.returned (answer.map fun _ => .done), w)

/-- A block with an answer in its fields for that. -/
def Block.fill : Block → Answer → Block
  | .map b, .mapping m => .map (b.fill m)
  | .info b, .info i => .info (b.fill i)
  | .copy b, .task id => .copy (b.fill id)
  | .copyAsync b, .task id => .copyAsync (b.fill id)
  | b, _ => b

/-- The tag is one of the two that there are. -/
def WireChunk.IsKnown (c : WireChunk) : Prop := c.tag = Chunk.hostTag ∨ c.tag = Chunk.fileTag

/-- The request that a block makes: its chunks are those of the request, encoded in order, and a
negative descriptor stands for no file. -/
structure CopyBlock.Asks (b : CopyBlock) (order : CopyOrder) : Prop where
  count : b.count = order.chunks.length
  chunks : b.chunks = order.chunks.map Chunk.toWire
  handle : order.handle = ⟨b.handle⟩
  offset : order.offset = b.offset
  descriptor : order.descriptor = if 0 ≤ b.descriptor then some b.descriptor else none

/-- The count is wrong, or a chunk is. -/
def CopyBlock.Malformed (b : CopyBlock) : Prop :=
  b.count ≠ b.chunks.length ∨ ∃ c ∈ b.chunks, ¬c.IsKnown

/-- The call that a block asks for on behalf of a caller. -/
inductive Block.Asks (caller : Pid) : Block → Action → Prop where
  | checkFile {descriptor : Int} : Asks caller (.checkFile descriptor) (.checkFile descriptor)
  | map {b : MapBlock} : Asks caller (.map b) (.map caller ⟨b.address⟩ b.length)
  | unmap {handle : Nat} : Asks caller (.unmap handle) (.unmap ⟨handle⟩)
  | info {b : InfoBlock} : Asks caller (.info b) (.info ⟨b.handle⟩ (min b.rooms b.physical.length))
  | copy {b : CopyBlock} {order : CopyOrder} (request : b.Asks order) :
      Asks caller (.copy b) (.copy order)
  | copyAsync {b : CopyBlock} {order : CopyOrder} (request : b.Asks order) :
      Asks caller (.copyAsync b) (.copyAsync order)
  | wait {task : Nat} : Asks caller (.wait task) (.wait ⟨task⟩)
  | debug {descriptor : Int} {offset length : Nat} :
      Asks caller (.debug descriptor offset length) (.probe descriptor offset length)

/-- No call is asked for. -/
def Block.Malformed : Block → Prop
  | .copy b => b.Malformed
  | .copyAsync b => b.Malformed
  | _ => False

/-! ## Decoding -/

namespace Chunk

theorem decode_toWire (c : Chunk) : c.toWire.decode = .ok c := ofWire_tag c

theorem decode_eq_ok_iff {c : WireChunk} {chunk : Chunk} :
    c.decode = .ok chunk ↔ c = chunk.toWire := by
  constructor
  · intro h
    unfold WireChunk.decode ofWire at h
    obtain ⟨tag, location, length⟩ := c
    dsimp only at h
    split at h
    · next htag =>
      obtain rfl := Except.ok.inj h
      rw [htag]
      rfl
    · split at h
      · next htag =>
        obtain rfl := Except.ok.inj h
        rw [htag]
        rfl
      · cases h
  · rintro rfl
    exact decode_toWire chunk

theorem isKnown_toWire (c : Chunk) : c.toWire.IsKnown := by
  cases c
  · exact .inl rfl
  · exact .inr rfl

theorem exists_decode {c : WireChunk} (h : c.IsKnown) : ∃ chunk, c.decode = .ok chunk := by
  obtain ⟨tag, location, length⟩ := c
  rcases h with rfl | rfl
  · exact ⟨.host location length, rfl⟩
  · exact ⟨.file location length, rfl⟩

/-- Chunks are decoded in order, and encoding them gives what was decoded. -/
theorem mapM_decode_eq_ok_iff {wire : List WireChunk} {chunks : List Chunk} :
    wire.mapM WireChunk.decode = .ok chunks ↔ wire = chunks.map toWire := by
  constructor
  · intro h
    induction wire generalizing chunks with
    | nil =>
      obtain rfl := Except.ok.inj h
      rfl
    | cons c rest ih =>
      rw [List.mapM_cons] at h
      rcases hc : c.decode with fault | chunk
      · rw [hc] at h
        cases h
      · rcases hrest : rest.mapM WireChunk.decode with fault | more
        · rw [hc, hrest] at h
          cases h
        · rw [hc, hrest] at h
          obtain rfl := Except.ok.inj h
          rw [List.map_cons, ← decode_eq_ok_iff.1 hc, ← ih hrest]
  · rintro rfl
    induction chunks with
    | nil => rfl
    | cons chunk rest ih =>
      rw [List.map_cons, List.mapM_cons, decode_toWire, ih]
      rfl

/-- Chunks can be decoded if all their tags are known. -/
theorem exists_mapM_decode {wire : List WireChunk} (h : ∀ c ∈ wire, c.IsKnown) :
    ∃ chunks, wire.mapM WireChunk.decode = .ok chunks := by
  induction wire with
  | nil => exact ⟨[], rfl⟩
  | cons c rest ih =>
    obtain ⟨chunk, hc⟩ := exists_decode (h c (by simp))
    obtain ⟨more, hrest⟩ := ih fun d hd => h d (by simp [hd])
    exact ⟨chunk :: more, by rw [List.mapM_cons, hc, hrest]; rfl⟩

end Chunk

namespace CopyBlock

variable {b : CopyBlock} {order : CopyOrder}

/-- A negative descriptor stands for no file. -/
theorem file_eq (descriptor : Int) : (if descriptor < 0 then none else some descriptor) =
    if 0 ≤ descriptor then some descriptor else none := by
  by_cases h : descriptor < 0
  · rw [if_pos h, if_neg (Int.not_le.2 h)]
  · rw [if_neg h, if_pos (Int.not_lt.1 h)]

/-- A block is decoded to the request that it makes. -/
theorem order_eq_ok_iff : b.order = .ok order ↔ b.Asks order := by
  unfold CopyBlock.order
  constructor
  · intro h
    split at h
    · cases h
    · next hcount =>
      split at h
      · cases h
      · next chunks hchunks =>
        obtain rfl := Except.ok.inj h
        have hwire := Chunk.mapM_decode_eq_ok_iff.1 hchunks
        have hlength := congrArg List.length hwire
        rw [List.length_map] at hlength
        exact ⟨(not_not.1 hcount).trans hlength, hwire, rfl, rfl, file_eq b.descriptor⟩
  · rintro ⟨hcount, hwire, hhandle, hoffset, hdescriptor⟩
    have hlength := congrArg List.length hwire
    rw [List.length_map] at hlength
    rw [if_neg (not_not.2 (hcount.trans hlength.symm)), Chunk.mapM_decode_eq_ok_iff.2 hwire]
    obtain ⟨handle, descriptor, offset, chunks⟩ := order
    dsimp only at hhandle hoffset hdescriptor ⊢
    rw [hhandle, hoffset, hdescriptor, file_eq]

/-- A block that makes no request is malformed. -/
theorem order_error_iff : (∃ fault, b.order = .error fault) ↔ b.Malformed := by
  unfold CopyBlock.order Malformed
  constructor
  · rintro ⟨fault, h⟩
    by_cases hcount : b.count ≠ b.chunks.length
    · exact .inl hcount
    · refine .inr ?_
      by_contra hknown
      obtain ⟨chunks, hchunks⟩ := Chunk.exists_mapM_decode fun c hc => by
        by_contra hc'
        exact hknown ⟨c, hc, hc'⟩
      rw [if_neg hcount, hchunks] at h
      cases h
  · intro h
    split
    · exact ⟨.count, rfl⟩
    · next hcount =>
      obtain ⟨c, hc, hunknown⟩ := h.resolve_left hcount
      split
      · next fault hfault => exact ⟨.chunk fault, rfl⟩
      · next chunks hchunks =>
        rw [Chunk.mapM_decode_eq_ok_iff.1 hchunks] at hc
        obtain ⟨chunk, -, rfl⟩ := List.mem_map.1 hc
        exact absurd chunk.isKnown_toWire hunknown

end CopyBlock

namespace CopyBlock

variable {b : CopyBlock} {order : CopyOrder}

theorem Asks.unique {other : CopyOrder} (h : b.Asks order) (h' : b.Asks other) : order = other :=
  Except.ok.inj ((order_eq_ok_iff.2 h).symm.trans (order_eq_ok_iff.2 h'))

theorem not_malformed_iff : ¬b.Malformed ↔ ∃ order, b.Asks order := by
  rw [← order_error_iff]
  constructor
  · intro h
    cases horder : b.order with
    | error fault => exact absurd ⟨fault, horder⟩ h
    | ok order => exact ⟨order, order_eq_ok_iff.1 horder⟩
  · rintro ⟨order, h⟩ ⟨fault, hfault⟩
    cases hfault.symm.trans (order_eq_ok_iff.2 h)

end CopyBlock

namespace Block

variable {caller : Pid} {block : Block} {action : Action}

theorem Asks.unique {other : Action} (h : block.Asks caller action)
    (h' : block.Asks caller other) : other = action := by
  cases h with
  | copy request =>
    cases h' with
    | copy request' => exact congrArg _ (request'.unique request)
  | copyAsync request =>
    cases h' with
    | copyAsync request' => exact congrArg _ (request'.unique request)
  | _ =>
    cases h'
    rfl

/-- A block asks for one call, if it is not malformed. -/
theorem not_malformed_iff : ¬block.Malformed ↔ ∃! action, block.Asks caller action := by
  have hexists : ¬block.Malformed ↔ ∃ action, block.Asks caller action := by
    cases block with
    | checkFile descriptor => exact iff_of_true not_false ⟨_, .checkFile⟩
    | map b => exact iff_of_true not_false ⟨_, .map⟩
    | unmap handle => exact iff_of_true not_false ⟨_, .unmap⟩
    | info b => exact iff_of_true not_false ⟨_, .info⟩
    | copy b =>
      refine CopyBlock.not_malformed_iff.trans ⟨fun ⟨order, h⟩ => ⟨_, .copy h⟩, ?_⟩
      rintro ⟨_, h⟩
      cases h with
      | copy request => exact ⟨_, request⟩
    | copyAsync b =>
      refine CopyBlock.not_malformed_iff.trans ⟨fun ⟨order, h⟩ => ⟨_, .copyAsync h⟩, ?_⟩
      rintro ⟨_, h⟩
      cases h with
      | copyAsync request => exact ⟨_, request⟩
    | wait task => exact iff_of_true not_false ⟨_, .wait⟩
    | debug descriptor offset length => exact iff_of_true not_false ⟨_, .debug⟩
  rw [hexists]
  constructor
  · rintro ⟨action, h⟩
    exact ⟨action, h, fun other h' => h.unique h'⟩
  · rintro ⟨action, h, -⟩
    exact ⟨action, h⟩

end Block

/-! ## Answers -/

/-- The block shows a mapping. What the caller has asked for is as it was. -/
structure MapBlock.Shows (before after : MapBlock) (m : Mapping) : Prop where
  handle : after.handle = m.handle.id
  pageSize : after.pageSize = m.pageSize.bytes
  pages : after.pages = m.entries
  address : after.address = before.address
  length : after.length = before.length

theorem MapBlock.shows_iff {before after : MapBlock} {m : Mapping} :
    before.Shows after m ↔ after = before.fill m := by
  constructor
  · intro h
    obtain ⟨handle, pageSize, pages, address, length⟩ := after
    obtain ⟨rfl, rfl, rfl, rfl, rfl⟩ := h
    rfl
  · rintro rfl
    exact ⟨rfl, rfl, rfl, rfl, rfl⟩

/-- The block shows the task of a copy. The request is as it was. -/
structure CopyBlock.Shows (before after : CopyBlock) (id : TaskId) : Prop where
  task : after.task = id.id
  handle : after.handle = before.handle
  offset : after.offset = before.offset
  descriptor : after.descriptor = before.descriptor
  count : after.count = before.count
  chunks : after.chunks = before.chunks

theorem CopyBlock.shows_iff {before after : CopyBlock} {id : TaskId} :
    before.Shows after id ↔ after = before.fill id := by
  constructor
  · intro h
    obtain ⟨task, handle, offset, descriptor, count, chunks⟩ := after
    obtain ⟨rfl, rfl, rfl, rfl, rfl, rfl⟩ := h
    rfl
  · rintro rfl
    exact ⟨rfl, rfl, rfl, rfl, rfl, rfl⟩

/-- The block shows the page table of a region, as far as there is room in the array and the caller
has asked for it; the rest of the array is as it was. -/
structure InfoBlock.Shows (before after : InfoBlock) (r : Region) : Prop where
  handle : after.handle = before.handle
  rooms : after.rooms = before.rooms
  version : after.version = r.table.version
  pageSize : after.pageSize = r.pageSize.bytes
  entries : after.entries = r.pages.length
  length : after.physical.length = before.physical.length
  written : ∀ j < min r.pages.length (min before.rooms before.physical.length),
    after.physical[j]? = r.pages[j]?.map PhysAddr.raw
  kept : ∀ j, min r.pages.length (min before.rooms before.physical.length) ≤ j →
    after.physical[j]? = before.physical[j]?

/-- What a block shows of a page table settles all its fields. -/
theorem InfoBlock.Shows.unique {before a b : InfoBlock} {r : Region} (ha : before.Shows a r)
    (hb : before.Shows b r) : a = b := by
  have hphysical : a.physical = b.physical := by
    refine List.ext_getElem? fun j => ?_
    rcases Nat.lt_or_ge j (min r.pages.length (min before.rooms before.physical.length)) with h | h
    · rw [ha.written j h, hb.written j h]
    · rw [ha.kept j h, hb.kept j h]
  obtain ⟨ha₁, ha₂, ha₃, ha₄, ha₅, -⟩ := ha
  obtain ⟨hb₁, hb₂, hb₃, hb₄, hb₅, -⟩ := hb
  obtain ⟨handle, rooms, version, pageSize, entries, physical⟩ := a
  simp only at ha₁ ha₂ ha₃ ha₄ ha₅ hphysical
  rw [ha₁, ha₂, ha₃, ha₄, ha₅, hphysical, ← hb₁, ← hb₂, ← hb₃, ← hb₄, ← hb₅]

theorem InfoBlock.shows_fill (b : InfoBlock) (r : Region) :
    b.Shows (b.fill (r.info b.capacity)) r := by
  have hlength : (r.info b.capacity).physical.length =
      min r.pages.length (min b.rooms b.physical.length) := by
    rw [Region.info, List.length_take, InfoBlock.capacity]
    omega
  refine ⟨rfl, rfl, rfl, rfl, rfl, ?_, fun j hj => ?_, fun j hj => ?_⟩
  · rw [InfoBlock.fill, List.length_append, List.length_map, List.length_drop, hlength]
    omega
  · rw [InfoBlock.fill, List.getElem?_append_left (by rw [List.length_map, hlength]; exact hj),
      List.getElem?_map, Region.info, List.getElem?_take_of_lt (by unfold capacity; omega)]
  · rw [InfoBlock.fill, List.getElem?_append_right (by rw [List.length_map, hlength]; exact hj),
      List.length_map, hlength, List.getElem?_drop, Nat.add_sub_cancel' hj]

/-- What a block shows when its call has succeeded. A block without fields for the answer is as it
was. -/
def Block.Shows (before : Block) (answer : Answer) (after : Block) : Prop :=
  match before, answer with
  | .map b, .mapping m => ∃ filled, after = .map filled ∧ b.Shows filled m
  | .info b, .info i => ∃ filled r, after = .info filled ∧
      i = r.info (min b.rooms b.physical.length) ∧ b.Shows filled r
  | .copy b, .task id => ∃ filled, after = .copy filled ∧ b.Shows filled id
  | .copyAsync b, .task id => ∃ filled, after = .copyAsync filled ∧ b.Shows filled id
  | before, _ => after = before

/-- A page table is that of a region. -/
theorem Block.shows_fill {block : Block} {answer : Answer}
    (h : ∀ b i, block = .info b → answer = .info i →
      ∃ r : Region, i = r.info (min b.rooms b.physical.length)) :
    block.Shows answer (block.fill answer) := by
  cases block with
  | map b =>
    cases answer with
    | mapping m => exact ⟨_, rfl, MapBlock.shows_iff.2 rfl⟩
    | _ => rfl
  | info b =>
    cases answer with
    | info i =>
      obtain ⟨r, rfl⟩ := h b i rfl rfl
      refine ⟨_, r, rfl, rfl, ?_⟩
      rw [Nat.min_comm b.rooms]
      exact b.shows_fill r
    | _ => rfl
  | copy b =>
    cases answer with
    | task id => exact ⟨_, rfl, CopyBlock.shows_iff.2 rfl⟩
    | _ => rfl
  | copyAsync b =>
    cases answer with
    | task id => exact ⟨_, rfl, CopyBlock.shows_iff.2 rfl⟩
    | _ => rfl
  | _ => rfl

namespace World

/-- A page table is that of the registered region. -/
theorem info_ok {handle : Handle} {capacity : Nat} {i : RegionInfo}
    (h : w.info p handle capacity = (.ok i, w')) :
    ∃ use, w.core.mappings.table.find? handle = some use ∧ i = use.region.info capacity := by
  unfold info at h
  split at h
  · cases h
  · next use w₁ hacquire =>
    obtain ⟨before, mappings, hfind, hregion, rfl⟩ := acquire_ok hacquire
    refine ⟨before, hfind, ?_⟩
    rw [← hregion]
    exact (Except.ok.inj (congrArg Prod.fst h)).symm

/-! ## Commands -/

/-- What leads from `w` to `w'` writes to the log and does nothing else. -/
structure Logs (w w' : World ε) : Prop where
  core : w'.core = w.core
  outside : w'.ambient.outside = w.ambient.outside
  history : ∃ lines : List Log.Entry, w'.ambient.history = lines.map .logged ++ w.ambient.history

namespace Logs

theorem refl (w : World ε) : w.Logs w := ⟨rfl, rfl, [], rfl⟩

theorem log (w : World ε) (entry : Log.Entry) : w.Logs (w.log entry) := ⟨rfl, rfl, [entry], rfl⟩

theorem log? (w : World ε) (entry : Option Log.Entry) : w.Logs (w.log? entry) := by
  cases entry with
  | none => exact refl w
  | some entry => exact log w entry

theorem trans {w'' : World ε} (h : w.Logs w') (h' : w'.Logs w'') : w.Logs w'' := by
  obtain ⟨lines, hlines⟩ := h.history
  obtain ⟨lines', hlines'⟩ := h'.history
  refine ⟨h'.core.trans h.core, h'.outside.trans h.outside, lines' ++ lines, ?_⟩
  rw [hlines', hlines, List.map_append, List.append_assoc]

end Logs

variable {caller : Pid} {number : Nat} {block : Block} {action : Action}

theorem decodeCopy_ok {b : CopyBlock} {order : CopyOrder} (h : b.Asks order) :
    w.decodeCopy b = (.ok order, w) := by
  unfold decodeCopy
  rw [CopyBlock.order_eq_ok_iff.2 h]

theorem decodeCopy_malformed (w : World ε) {b : CopyBlock} (h : b.Malformed) :
    ∃ w', w.decodeCopy b = (.error .invalidArgument, w') ∧ w.Logs w' := by
  obtain ⟨fault, hfault⟩ := CopyBlock.order_error_iff.2 h
  unfold decodeCopy
  rw [hfault]
  exact ⟨_, rfl, .log? w _⟩

/-- A command does what the call does that it asks for, and is filled in with its answer. -/
theorem execute_direct (h : block.Asks caller action) :
    w.execute p caller block = ((w.act p action).1.map (·.map block.fill), (w.act p action).2) := by
  cases h with
  | @checkFile descriptor =>
    unfold execute act
    dsimp only
    rcases w.checkFile p descriptor with ⟨_ | _, w'⟩ <;> rfl
  | @map b =>
    unfold execute act
    dsimp only
    rcases w.map p caller ⟨b.address⟩ b.length with ⟨_ | _, w'⟩ <;> rfl
  | @unmap handle =>
    unfold execute act
    dsimp only
    rcases w.teardown p ⟨handle⟩ .unmap with ⟨(_ | _) | _, w'⟩ <;> rfl
  | @info b =>
    unfold execute act
    dsimp only
    rw [InfoBlock.capacity, Nat.min_comm]
    rcases w.info p ⟨b.handle⟩ (min b.rooms b.physical.length) with ⟨_ | _, w'⟩ <;> rfl
  | @copy b order request =>
    unfold execute act
    dsimp only
    rw [decodeCopy_ok request]
    dsimp only
    rcases w.copy p order with ⟨(_ | _) | _, w'⟩ <;> rfl
  | @copyAsync b order request =>
    unfold execute act
    dsimp only
    rw [decodeCopy_ok request]
    dsimp only
    rcases w.copyAsync p order with ⟨_ | _, w'⟩ <;> rfl
  | @wait task =>
    unfold execute act
    dsimp only
    rcases w.wait ⟨task⟩ with ⟨(_ | _) | _, w'⟩ <;> rfl
  | @debug descriptor offset length =>
    unfold execute act
    dsimp only
    rcases w.probe p logProbe descriptor offset length with ⟨_ | _, w'⟩ <;> rfl

/-- A command that succeeds shows the answer of its call. -/
theorem shows_of_returned {answer : Answer} (hasks : block.Asks caller action)
    (h : (w.act p action).1 = .returned (.ok answer)) :
    block.Shows answer (block.fill answer) := by
  refine Block.shows_fill fun b i hblock hanswer => ?_
  subst hblock hanswer
  cases hasks with
  | info =>
    unfold act at h
    dsimp only at h
    rcases hinfo : w.info p ⟨b.handle⟩ (min b.rooms b.physical.length) with ⟨e | found, w'⟩ <;>
      rw [hinfo] at h
    · cases h
    · cases h
      obtain ⟨use, -, hregion⟩ := info_ok hinfo
      exact ⟨use.region, hregion⟩

/-- A command that has been parked shows the answer that its call comes back with. -/
theorem settle_of_parked {waiter : Waiter} (hasks : block.Asks caller action)
    (h : (w.act p action).1 = .parked waiter) (reply : Reply) :
    ∃ after, block.Shows (.ofReply reply) after ∧ block.settle reply = (0, after) := by
  refine ⟨block.fill (.ofReply reply), Block.shows_fill fun b i _ hanswer => ?_, ?_⟩
  · cases reply <;> cases hanswer
  · cases hasks with
    | copyAsync request =>
      unfold act at h
      cases h
    | _ => cases reply <;> rfl

/-- A command that makes no request leaves the instance alone. -/
theorem execute_malformed (p : Platform ε) (caller : Pid) (w : World ε) (h : block.Malformed) :
    (w.execute p caller block).1 = .returned (.error .invalidArgument) ∧
      w.Logs (w.execute p caller block).2 := by
  cases block with
  | copy b =>
    obtain ⟨w', hdecode, hlogs⟩ := decodeCopy_malformed w h
    unfold execute
    dsimp only
    rw [hdecode]
    exact ⟨rfl, hlogs⟩
  | copyAsync b =>
    obtain ⟨w', hdecode, hlogs⟩ := decodeCopy_malformed w h
    unfold execute
    dsimp only
    rw [hdecode]
    exact ⟨rfl, hlogs⟩
  | _ => exact h.elim

/-- What `execute` does with the page-table array. -/
theorem execute_info {b : InfoBlock} {filled : Block}
    (h : (w.execute p caller (.info b)).1 = .returned (.ok filled)) :
    ∃ use after, w.core.mappings.table.find? ⟨b.handle⟩ = some use ∧ filled = .info after ∧
      b.Shows after use.region := by
  unfold execute at h
  dsimp only at h
  rcases hinfo : w.info p ⟨b.handle⟩ b.capacity with ⟨e | i, w'⟩
  · rw [hinfo] at h
    cases h
  · rw [hinfo] at h
    obtain ⟨use, hfind, rfl⟩ := info_ok hinfo
    obtain rfl := Except.ok.inj (Outcome.returned.inj h)
    exact ⟨use, _, hfind, rfl, b.shows_fill use.region⟩

/-- **Commands are calls.** Whatever the instance, the caller, the number and the block:

* A command with a number other than that of its block, or with a malformed block, is refused with a
  bad argument. It writes to the log, and changes neither the instance nor the surroundings.
* Every block that is not malformed asks for one call, whose chunks are those of the block in order.
* Carrying such a block out does what that call does. If the call succeeds, the block shows its
  answer and keeps the other fields. If it fails, the block is as it was. If it is parked, so is the
  command, and in the end the block shows what the call comes back with. If the command has the right
  number, dispatching it does the same: its status is zero if the call succeeds, and else the code of
  the error, with a line in the log.
* Encoded chunks are decoded to what they were.
* A page table is written to the slots of the array for which the region has pages and the caller
  has asked; the other slots keep their values. -/
theorem dispatch_direct (p : Platform ε) (caller : Pid) (number : Nat) (block : Block)
    (w : World ε) :
    let own := CommandCode.ofNumber? number = some block.code
    let executed := w.execute p caller block
    let dispatched := w.dispatch p caller number block
    (¬own ∨ block.Malformed →
        dispatched.1 = .returned (Error.invalidArgument.errno, block) ∧ w.Logs dispatched.2) ∧
      (block.Malformed →
        executed.1 = .returned (.error .invalidArgument) ∧ w.Logs executed.2) ∧
      (¬block.Malformed ↔ ∃! action, block.Asks caller action) ∧
      (∀ action, block.Asks caller action →
        let direct := w.act p action
        (∀ answer, direct.1 = .returned (.ok answer) →
          ∃ after, block.Shows answer after ∧ executed = (.returned (.ok after), direct.2) ∧
            (own → dispatched = (.returned (0, after), direct.2))) ∧
        (∀ e, direct.1 = .returned (.error e) →
          executed = (.returned (.error e), direct.2) ∧
            (own →
              dispatched = (.returned (e.errno, block), direct.2.log (.commandFailed number e)))) ∧
        ∀ waiter, direct.1 = .parked waiter →
          executed = (.parked waiter, direct.2) ∧
            (own → dispatched = (.parked waiter, direct.2)) ∧
            ∀ reply, ∃ after, block.Shows (.ofReply reply) after ∧
              block.settle reply = (0, after)) ∧
      (∀ chunks : List Chunk, (chunks.map Chunk.toWire).mapM WireChunk.decode = .ok chunks) ∧
      (∀ b filled, block = .info b → executed.1 = .returned (.ok filled) →
        ∃ use after, w.core.mappings.table.find? ⟨b.handle⟩ = some use ∧ filled = .info after ∧
          b.Shows after use.region) := by
  intro own executed dispatched
  refine ⟨fun hrefused => ?_, execute_malformed p caller w, Block.not_malformed_iff,
    fun action hasks => ?_, fun chunks => Chunk.mapM_decode_eq_ok_iff.2 rfl, ?_⟩
  · by_cases hown : own
    · obtain ⟨hfails, hlogs⟩ := execute_malformed p caller w
        (hrefused.resolve_left (not_not.2 hown))
      have hdispatch : dispatched = executed.2.failCommand number block .invalidArgument :=
        dispatch_error hown (Prod.ext hfails rfl)
      rw [hdispatch]
      exact ⟨rfl, hlogs.trans (.log _ _)⟩
    · obtain ⟨refused, hlogs, hdispatch⟩ := dispatch_foreign p caller w hown
      have hrefused : w.Logs refused := by
        rcases hlogs with rfl | rfl
        · exact .refl _
        · exact .log _ _
      rw [show dispatched = _ from hdispatch]
      exact ⟨rfl, hrefused.trans (.log _ _)⟩
  · intro direct
    have hexecuted : executed = (direct.1.map (·.map block.fill), direct.2) := execute_direct hasks
    refine ⟨fun answer h => ?_, fun e h => ?_, fun waiter h => ?_⟩
    · have hok : executed = (.returned (.ok (block.fill answer)), direct.2) := by
        rw [hexecuted, h]
        rfl
      exact ⟨_, shows_of_returned hasks h, hok, fun hown => dispatch_ok hown hok⟩
    · have herror : executed = (.returned (.error e), direct.2) := by
        rw [hexecuted, h]
        rfl
      exact ⟨herror, fun hown => dispatch_error hown herror⟩
    · have hparked : executed = (.parked waiter, direct.2) := by
        rw [hexecuted, h]
        rfl
      exact ⟨hparked, fun hown => dispatch_parked hown hparked, settle_of_parked hasks h⟩
  · rintro b filled rfl h
    exact execute_info h

end World

/-- A bench with one region, of two device pages. -/
def Bench.withPages : World Bench :=
  (World.map platform ⟨1⟩ ⟨0x10000⟩ 0x20000 ⟨.create {} {}, ⟨{}, []⟩⟩).2

namespace World

/-- A region is mapped, a page table of two pages is read into an array of three by a caller who asks
for five, a copy is launched, and another one is refused for the tag of its second chunk. -/
theorem dispatch_direct_answers :
    let dispatch := fun number block =>
      Bench.withPages.dispatch Bench.platform ⟨1⟩ number block
    let m : MapBlock := { address := 0x50000, length := 0x10000 }
    let b : InfoBlock := { handle := 1, rooms := 5, physical := [7, 8, 9] }
    let filled : InfoBlock := { b with
      version := 0x10000, pageSize := 0x10000, entries := 2,
      physical := [0x4000000000, 0x4000020000, 9] }
    let c : CopyBlock := { handle := 1, offset := 0, descriptor := -1, count := 1, chunks :=
      [⟨0x6d, 0x5000, 0x1000⟩] }
    let bad : CopyBlock := { c with
      count := 2, chunks := [⟨0x6d, 0x5000, 0x1000⟩, ⟨0x78, 0x9000, 0x1000⟩] }
    (dispatch 0x81 (.map m)).1 =
        .returned (0, .map { m with handle := 2, pageSize := 0x10000, pages := 1 }) ∧
      (dispatch 0x83 (.info b)).1 = .returned (0, .info filled) ∧
      (dispatch 0x85 (.copyAsync c)).1 = .returned (0, .copyAsync { c with task := 1 }) ∧
      (dispatch 0x84 (.copy bad)).1 = .returned (-22, .copy bad) ∧
      (dispatch 0x84 (.copy bad)).2.core = Bench.withPages.core := by
  intro dispatch m b filled c bad
  have hspec (number block) :=
    dispatch_direct Bench.platform ⟨1⟩ number block Bench.withPages
  obtain ⟨-, -, -, hmap, -⟩ := hspec 0x81 (.map m)
  obtain ⟨-, -, -, hinfo, -⟩ := hspec 0x83 (.info b)
  obtain ⟨-, -, -, hcopy, -⟩ := hspec 0x85 (.copyAsync c)
  obtain ⟨hrefused, -⟩ := hspec 0x84 (.copy bad)
  refine ⟨?_, ?_, ?_, ?_⟩
  · have hanswer : (Bench.withPages.act Bench.platform (.map ⟨1⟩ ⟨0x50000⟩ 0x10000)).1 =
        .returned (.ok (.mapping ⟨⟨2⟩, .size64K, 1⟩)) := by decide +kernel
    obtain ⟨_, ⟨after, rfl, hshown⟩, -, hdispatch⟩ := (hmap _ .map).1 _ hanswer
    rw [MapBlock.shows_iff.1 hshown] at hdispatch
    exact congrArg Prod.fst (hdispatch rfl)
  · have hanswer : (Bench.withPages.act Bench.platform (.info ⟨1⟩ 3)).1 =
        .returned (.ok (.info ⟨⟨1⟩, 0x10000, .size64K, 2, [⟨0x4000000000⟩, ⟨0x4000020000⟩]⟩)) := by
      decide +kernel
    obtain ⟨_, ⟨after, r, rfl, htable, hshown⟩, -, hdispatch⟩ := (hinfo _ .info).1 _ hanswer
    have hfilled : b.fill (r.info b.capacity) = filled := congrArg b.fill htable.symm
    rw [hshown.unique (b.shows_fill r), hfilled] at hdispatch
    exact congrArg Prod.fst (hdispatch rfl)
  · have hasks : c.Asks ⟨⟨1⟩, none, 0, [.host 0x5000 0x1000]⟩ := ⟨rfl, rfl, rfl, rfl, rfl⟩
    have hanswer : (Bench.withPages.act Bench.platform
        (.copyAsync ⟨⟨1⟩, none, 0, [.host 0x5000 0x1000]⟩)).1 = .returned (.ok (.task ⟨1⟩)) := by
      decide +kernel
    obtain ⟨_, ⟨after, rfl, hshown⟩, -, hdispatch⟩ := (hcopy _ (.copyAsync hasks)).1 _ hanswer
    rw [CopyBlock.shows_iff.1 hshown] at hdispatch
    exact congrArg Prod.fst (hdispatch rfl)
  · have hbad : (Block.copy bad).Malformed :=
      .inr ⟨⟨0x78, 0x9000, 0x1000⟩, by simp [bad], by unfold WireChunk.IsKnown; decide⟩
    obtain ⟨hstatus, hlogs⟩ := hrefused (.inr hbad)
    exact ⟨hstatus, hlogs.core⟩

end World

end PeerDma
