import PeerDma.Proofs.Pages
import PeerDma.World.Requests

/-!
# Where the bytes of a copy come from

The surroundings say page by page where the bytes of a chunk are: a host chunk is pinned as a whole,
a file chunk is looked up, each page either in the page cache or on disk. What they said is in the
history (`World.transfers`), and the extents of the chunk follow from it.

* `Place`, `Backing`: where a page is, and where the pages of a chunk are.
* `Chunk.byteAt`: where a byte of a chunk is read from, given where its pages are.
* `World.Quiet`: steps that look nothing up and submit nothing. Cleaning tasks up is one.
* `Ambient.Finds`, `World.FindsAll`: what the surroundings answer when they are asked where the pages
  of chunks are, each page once.
* `World.resolve_finds`, `Chunk.bytes_extents`: the extents of chunks read their bytes in order.
-/

namespace PeerDma

/-! ## Places -/

/-- Where a page is. -/
inductive Place where
  /-- In host memory, under a reference. -/
  | cached (page : HostPage)
  /-- On a block of the disk. -/
  | block (number : Nat)
  deriving DecidableEq, Repr

namespace Place

/-- Where to read a byte that lies `within` bytes into the page. -/
def byte (blockSize within : Nat) : Place → Channel × Nat
  | cached page => (.memory, page.dma.raw + within)
  | block number => (.storage, number * blockSize + within)

/-- Where to read a span of the page. -/
def extent (blockSize : Nat) (span : Span) (place : Place) : Extent :=
  ⟨(place.byte blockSize span.within).1, (place.byte blockSize span.within).2, span.length⟩

/-- Whether there is an address for a byte of the page. A block may be too far out for one. -/
def Addressable (blockSize within : Nat) : Place → Prop
  | cached _ => True
  | block number => number * blockSize + within < Word.bound

instance (blockSize within : Nat) (place : Place) :
    Decidable (place.Addressable blockSize within) := by
  cases place <;> unfold Place.Addressable <;> infer_instance

/-- The page reference that goes with the place. -/
def page? : Place → Option HostPage
  | cached page => some page
  | block _ => none

/-- The answer to the look-up of a file page. -/
def answer (file : Int) (index : Nat) : Place → Event
  | cached page => .cacheHit file index page
  | block number => .blockFound file index number

theorem bytes_extent (blockSize : Nat) (span : Span) (place : Place) :
    (place.extent blockSize span).bytes =
      (List.range span.length).map fun k => place.byte blockSize (span.within + k) := by
  rw [Extent.bytes, List.range'_eq_map_range, List.map_map]
  cases place <;> exact List.map_congr_left fun k _ => by simp [extent, byte, Nat.add_assoc]

/-- The address of a byte of a block. -/
theorem blockAddress (number blockSize within : Nat) :
    (Word.mul? number blockSize).bind (Word.add? · within) =
      if (block number).Addressable blockSize within then some (number * blockSize + within)
      else none := by
  unfold Word.mul?
  split
  · rfl
  · next hlarge =>
    refine (if_neg fun h : number * blockSize + within < Word.bound => ?_).symm
    omega

end Place

/-- Where the pages of a chunk are. -/
inductive Backing where
  /-- In host memory, where they have been pinned; perhaps with some pages too many. -/
  | pinned (pages : List HostPage)
  /-- Where the look-ups of the pages of a file say. -/
  | found (file : File) (places : List Place)

namespace Backing

/-- The pages, in order. -/
def places : Backing → List Place
  | pinned pages => pages.map .cached
  | found _ places => places

/-- The size of the blocks that places count in. -/
def blockSize : Backing → Nat
  | pinned _ => 0
  | found file _ => file.blockSize

/-- The page references that go with the places. -/
def pins : Backing → List PinSet
  | pinned pages => [⟨pages⟩]
  | found _ places =>
    if (places.filterMap Place.page?).isEmpty then [] else [⟨places.filterMap Place.page?⟩]

/-- A page in host memory is there under one of the references. -/
theorem page?_mem_pins (b : Backing) {place : Place} (h : place ∈ b.places) :
    ∀ page, place.page? = some page → page ∈ b.pins.flatMap PinSet.pages := by
  intro page hpage
  cases b with
  | pinned pages =>
    obtain ⟨found, hfound, rfl⟩ := List.mem_map.1 h
    obtain rfl : found = page := Option.some.inj hpage
    simpa [pins] using hfound
  | found file places =>
    have hmem : page ∈ places.filterMap Place.page? := List.mem_filterMap.2 ⟨place, h, hpage⟩
    have hne : (places.filterMap Place.page?).isEmpty = false := by
      rw [List.isEmpty_eq_false_iff]
      exact List.ne_nil_of_mem hmem
    simpa [pins, hne] using hmem

end Backing

namespace Chunk

/-- Where byte `k` of the chunk is read from. Its page is the one that its address or file offset
lies on, counted from the first page of the chunk. -/
def byteAt (pageSize : Nat) (c : Chunk) (b : Backing) (k : Nat) : Option (Channel × Nat) :=
  (b.places[(c.start + k) / pageSize - c.start / pageSize]?).map
    (Place.byte b.blockSize ((c.start + k) % pageSize))

/-- The extents of the chunk. -/
def extents (pageSize : Nat) (c : Chunk) (b : Backing) : List Extent :=
  List.zipWith (fun span place => place.extent b.blockSize span)
    (spans pageSize c.start c.length) b.places

/-- The answers of the surroundings that say where the pages of a chunk are: one pin of all its
pages for host memory, one look-up for each page of a file. -/
inductive Located (pageSize : Nat) (file : Option File) : Chunk → Backing → List Event → Prop where
  | host {address length : Nat} {pages : List HostPage}
      (enough : pageCount pageSize address length ≤ pages.length) :
      Located pageSize file (.host address length) (.pinned pages)
        [.hostPinned (address - address % pageSize) (pageCount pageSize address length) pages]
  | file {f : File} {offset length : Nat} {places : List Place} (source : file = some f)
      (exact : places.length = pageCount pageSize offset length) :
      Located pageSize file (.file offset length) (.found f places)
        ((places.zipIdx (offset / pageSize)).map fun (place, index) =>
          place.answer f.descriptor index)

/-- The same for a list of chunks. -/
inductive LocatedAll (pageSize : Nat) (file : Option File) :
    List Chunk → List Backing → List Event → Prop where
  | nil : LocatedAll pageSize file [] [] []
  | cons {c : Chunk} {b : Backing} {events : List Event} {chunks : List Chunk}
      {backings : List Backing} {more : List Event} (first : Located pageSize file c b events)
      (rest : LocatedAll pageSize file chunks backings more) :
      LocatedAll pageSize file (c :: chunks) (b :: backings) (events ++ more)

theorem Located.count_le {pageSize : Nat} {file : Option File} {c : Chunk} {b : Backing}
    {events : List Event} (h : Located pageSize file c b events) :
    pageCount pageSize c.start c.length ≤ b.places.length := by
  cases h with
  | host enough => simpa [Backing.places, start, length] using enough
  | file _ exact => exact Nat.le_of_eq exact.symm

/-- The extents of a chunk read its bytes in order. -/
theorem bytes_extents {pageSize : Nat} {file : Option File} {c : Chunk} {b : Backing}
    {events : List Event} (hp : 0 < pageSize) (hc : 0 < c.length)
    (h : Located pageSize file c b events) :
    ((c.extents pageSize b).flatMap Extent.bytes).map some =
      (List.range c.length).map (c.byteAt pageSize b) := by
  have hspans := length_spans hp c.start hc
  have hcount := h.count_le
  -- Pages beyond the last one of the chunk are of no account.
  have htake : c.extents pageSize b =
      List.zipWith (fun span place => place.extent b.blockSize span)
        (spans pageSize c.start c.length) (b.places.take (pageCount pageSize c.start c.length)) := by
    rw [← hspans, zipWith_take_length, extents]
  have hitems : (b.places.take (pageCount pageSize c.start c.length)).length =
      (spans pageSize c.start c.length).length := by
    rw [hspans, List.length_take, Nat.min_eq_left hcount]
  have hwalk := zipWith_spans (fun place within => Place.byte b.blockSize within place) hp c.start
    hitems
  rw [htake, List.flatMap_def, List.map_zipWith]
  simp only [Place.bytes_extent]
  rw [hwalk]
  apply List.map_congr_left
  intro k hk
  have hlt : (c.start + k) / pageSize - c.start / pageSize <
      pageCount pageSize c.start c.length := by
    have := List.mem_range.1 hk
    have hmono : (c.start + k) / pageSize ≤ (c.start + c.length - 1) / pageSize :=
      Nat.div_le_div_right (by omega)
    have hle : c.start / pageSize ≤ (c.start + k) / pageSize :=
      Nat.div_le_div_right (by omega)
    unfold pageCount
    omega
  rw [List.getElem?_take_of_lt hlt]
  rfl

end Chunk

/-! ## Answers in the history -/

/-- Whether an event is the answer to a look-up, or a submission. -/
def Event.isTransfer : Event → Bool
  | hostPinned .. => true
  | cacheHit .. => true
  | blockFound .. => true
  | submitted _ => true
  | _ => false

/-- The answers to look-ups and the submissions so far, the first one first. -/
def Ambient.transfers {ε : Type} (a : Ambient ε) : List Event :=
  (a.history.filter Event.isTransfer).reverse

/-- The answers to look-ups and the submissions so far, the first one first. -/
def World.transfers {ε : Type} (w : World ε) : List Event := w.ambient.transfers

theorem Ambient.transfers_note {ε : Type} (a : Ambient ε) (e : Event) :
    (a.note e).transfers = if e.isTransfer then a.transfers ++ [e] else a.transfers := by
  unfold transfers note
  rw [List.filter_cons]
  split <;> simp

namespace World

variable {ε : Type} (p : Platform ε)

/-- What leads from `w` to `w'` looks nothing up and submits nothing. -/
structure Quiet (w w' : World ε) : Prop where
  config : w'.core.config = w.core.config
  transfers : w'.transfers = w.transfers

namespace Quiet

variable {w w' w'' : World ε}

theorem refl (w : World ε) : Quiet w w := ⟨rfl, rfl⟩

theorem trans (h : Quiet w w') (h' : Quiet w' w'') : Quiet w w'' :=
  ⟨h'.config.trans h.config, h'.transfers.trans h.transfers⟩

theorem note (w : World ε) {e : Event} (h : e.isTransfer = false) : Quiet w (w.note e) :=
  ⟨rfl, by simp [World.transfers, World.note, Ambient.transfers_note, h]⟩

theorem log (w : World ε) (e : Log.Entry) : Quiet w (w.log e) := note w rfl

/-- What several steps do to a world, one after the other. -/
theorem foldl {α : Type} {f : World ε → α → World ε} (h : ∀ w x, Quiet w (f w x)) (xs : List α)
    (w : World ε) : Quiet w (xs.foldl f w) := by
  induction xs generalizing w with
  | nil => exact refl w
  | cons x rest ih => exact (h w x).trans (ih _)

theorem releaseAll (pins : List PinSet) (w : World ε) : Quiet w (w.releaseAll p pins) := by
  suffices ∀ a : Ambient ε, (a.releaseAll p pins).transfers = a.transfers from ⟨rfl, this _⟩
  unfold Ambient.releaseAll
  induction pins with
  | nil => exact fun _ => rfl
  | cons s rest ih =>
    intro a
    rw [List.foldl_cons, ih]
    unfold Ambient.release
    split
    · rfl
    · exact Ambient.transfers_note _ _

theorem setMappings (w : World ε) (mappings : Mappings) : Quiet w (w.setMappings mappings) :=
  ⟨rfl, rfl⟩

theorem setTasks (w : World ε) (tasks : Tasks) : Quiet w (w.setTasks tasks) := ⟨rfl, rfl⟩

theorem setFlights (w : World ε) (flights : Flights) : Quiet w (w.setFlights flights) := ⟨rfl, rfl⟩

theorem setParking (w : World ε) (parking : Parking) : Quiet w (w.setParking parking) := ⟨rfl, rfl⟩

theorem setOutside (w : World ε) (outside : ε) :
    Quiet w { w with ambient := { w.ambient with outside } } := ⟨rfl, rfl⟩

theorem unpinRegion (region : Region) (cause : Cause) (w : World ε) :
    Quiet w (w.unpinRegion p region cause) := by
  have hunpin : Quiet w { w with
      ambient := (w.ambient.unpin p region.handle region.base region.table cause).2 } :=
    ⟨rfl, Ambient.transfers_note _ _⟩
  unfold World.unpinRegion
  dsimp only
  cases (w.ambient.unpin p region.handle region.base region.table cause).1 with
  | ok => exact (hunpin.trans (setMappings _ _)).trans (log _ _)
  | error e => exact ((hunpin.trans (log _ _)).trans (setMappings _ _)).trans (log _ _)

theorem resume (s : Sleeper) (w : World ε) : Quiet w (w.resume p s) := by
  unfold World.resume World.unpinEvicted
  cases s.rest with
  | teardown region cause => exact (unpinRegion p region cause w).trans (note _ rfl)
  | eviction region =>
    have h := unpinRegion p region .evicted w
    exact ((h.trans (setMappings _ _)).trans (log _ _)).trans (note _ rfl)
  | wait => exact note w rfl
  | copy _ => exact note w rfl

theorem wake (waiter : Waiter) (w : World ε) : Quiet w (w.wake p waiter) :=
  (setParking w _).trans (foldl (fun w s => resume p s w) _ _)

theorem wake? (waiter : Option Waiter) (w : World ε) : Quiet w (w.wake? p waiter) := by
  cases waiter with
  | none => exact refl w
  | some waiter => exact wake p waiter w

theorem put (handle : Handle) (w : World ε) : Quiet w (w.put p handle) := by
  unfold World.put
  rcases w.core.mappings.put? handle with _ | ⟨woken, mappings⟩
  · exact log _ _
  · exact (setMappings w mappings).trans (wake? p woken _)

theorem cleanup (id : TaskId) (w : World ε) : Quiet w (w.cleanup p id).2 := by
  unfold World.cleanup
  rcases w.core.tasks.remove? id with _ | ⟨task, tasks⟩
  · exact log _ _
  · have h := setTasks w tasks
    exact (((h.trans (put p _ _)).trans (releaseAll p _ _)).trans (wake? p _ _)).trans (log _ _)

theorem cleanupAll (ids : List TaskId) (w : World ε) : Quiet w (w.cleanupAll p ids) :=
  foldl (fun w id => cleanup p id w) ids w

theorem finish (id : TaskId) (w : World ε) : Quiet w (w.finish p id) := by
  unfold World.finish
  dsimp only
  have h := setTasks w (w.core.tasks.finish id).2
  split
  · exact h.trans (cleanup p id _)
  · exact h

theorem land (token : Token) (w : World ε) : Quiet w (w.land p token) := by
  unfold World.land
  rcases w.core.flights.land? token with _ | ⟨flight, flights⟩
  · exact refl w
  · exact ((setFlights w flights).trans (note _ rfl)).trans (finish p _ _)

theorem landAll (tokens : List Token) (w : World ε) : Quiet w (w.landAll p tokens) :=
  foldl (fun w token => land p token w) tokens w

theorem retain (id : TaskId) (pins : List PinSet) (w : World ε) :
    Quiet w (w.retain p id pins) := by
  unfold World.retain
  cases w.core.tasks.retain? id pins with
  | none => exact releaseAll p pins w
  | some tasks => exact setTasks w tasks

end Quiet

end World

/-! ## Resolution -/

namespace Ambient

variable {ε : Type} (p : Platform ε)

/-- A page of a file is looked up: in the page cache, and in the block map if it is not there. -/
inductive Finds (file : File) (index : Nat) (a : Ambient ε) : Place → Ambient ε → Prop where
  | cached {page : HostPage} {x : ε}
      (hit : p.cachedPage file index a.outside = (some page, x)) :
      Finds file index a (.cached page)
        ({ a with outside := x }.note (.cacheHit file.descriptor index page))
  | block {number : Nat} {x x' : ε} (miss : p.cachedPage file index a.outside = (none, x))
      (known : p.resolveBlock file index x = (.ok number, x')) :
      Finds file index a (.block number)
        ({ a with outside := x' }.note (.blockFound file.descriptor index number))

/-- Pages of a file are looked up, each once, one after the other. -/
inductive FindsAll (file : File) : List Nat → Ambient ε → List Place → Ambient ε → Prop where
  | nil {a : Ambient ε} : FindsAll file [] a [] a
  | cons {index : Nat} {indices : List Nat} {place : Place} {places : List Place}
      {a a₁ a' : Ambient ε} (first : Finds p file index a place a₁)
      (rest : FindsAll file indices a₁ places a') :
      FindsAll file (index :: indices) a (place :: places) a'

/-- The answer to the look-up is in the history. -/
theorem Finds.transfers {file : File} {index : Nat} {place : Place} {a a' : Ambient ε}
    (h : Finds p file index a place a') :
    a'.transfers = a.transfers ++ [place.answer file.descriptor index] := by
  cases h <;> exact transfers_note _ _

theorem FindsAll.length_places {file : File} {indices : List Nat} {places : List Place}
    {a a' : Ambient ε} (h : FindsAll p file indices a places a') :
    places.length = indices.length := by
  induction h with
  | nil => rfl
  | cons _ _ ih => rw [List.length_cons, List.length_cons, ih]

theorem FindsAll.transfers {file : File} {first count : Nat} {places : List Place}
    {a a' : Ambient ε} (h : FindsAll p file (List.range' first count) a places a') :
    a'.transfers = a.transfers ++ (places.zipIdx first).map fun (place, index) =>
      place.answer file.descriptor index := by
  induction count generalizing first places a with
  | zero =>
    cases h
    simp
  | succ count ih =>
    rw [List.range'_succ] at h
    cases h with
    | cons hfirst hrest => rw [ih hrest, hfirst.transfers, List.append_assoc]; rfl

/-- A page that is in the page cache is read there. -/
theorem locate_of_cached {file : File} {span : Span} {page : HostPage} {a : Ambient ε} {x : ε}
    (hit : p.cachedPage file span.index a.outside = (some page, x)) :
    a.locate p file span =
      (.ok ((Place.cached page).extent file.blockSize span, some page),
        { a with outside := x }.note (.cacheHit file.descriptor span.index page)) := by
  simp only [locate, cachedPage, hit]
  rfl

/-- A page that is not in the page cache is read from its disk block. -/
theorem locate_of_uncached {file : File} {span : Span} {a : Ambient ε} {x : ε}
    (miss : p.cachedPage file span.index a.outside = (none, x)) :
    a.locate p file span = match p.resolveBlock file span.index x with
      | (.error e, x') => (.error e, { a with outside := x' })
      | (.ok number, x') =>
        (if (Place.block number).Addressable file.blockSize span.within then
            .ok ((Place.block number).extent file.blockSize span, none)
          else .error .invalidArgument,
          { a with outside := x' }.note (.blockFound file.descriptor span.index number)) := by
  rcases hb : p.resolveBlock file span.index x with ⟨e | number, x'⟩
  · simp only [locate, cachedPage, miss, resolveBlock, hb]
  · simp only [locate, cachedPage, miss, resolveBlock, hb, Place.blockAddress]
    by_cases haddress : (Place.block number).Addressable file.blockSize span.within
    · rw [if_pos haddress, if_pos haddress]
      rfl
    · rw [if_neg haddress, if_neg haddress]

/-- A span of a file is read where the look-up of its page says, if that has an address. -/
theorem locate_ok_iff {file : File} {span : Span} {a a' : Ambient ε}
    {found : Extent × Option HostPage} :
    a.locate p file span = (.ok found, a') ↔
      ∃ place : Place, Finds p file span.index a place a' ∧
        place.Addressable file.blockSize span.within ∧
        found = (place.extent file.blockSize span, place.page?) := by
  constructor
  · intro h
    rcases hc : p.cachedPage file span.index a.outside with ⟨_ | page, x⟩
    · rw [locate_of_uncached p hc] at h
      rcases hb : p.resolveBlock file span.index x with ⟨e | number, x'⟩ <;> rw [hb] at h
      · cases h
      · dsimp only at h
        split at h
        · next haddress =>
          cases h
          exact ⟨.block number, .block hc hb, haddress, rfl⟩
        · cases h
    · rw [locate_of_cached p hc] at h
      cases h
      exact ⟨.cached page, .cached hc, trivial, rfl⟩
  · rintro ⟨place, hfinds, haddress, rfl⟩
    cases hfinds with
    | cached hit => exact locate_of_cached p hit
    | block miss known =>
      rw [locate_of_uncached p miss, known]
      dsimp only
      rw [if_pos haddress]
      rfl

theorem locateAll_ok {pageSize : Nat} (hp : 0 < pageSize) {file : File} {offset length : Nat}
    {pins pins' : PinSet} {a a' : Ambient ε} {extents : List Extent}
    (h : a.locateAll p pageSize file offset length pins = (.ok (extents, pins'), a')) :
    ∃ places : List Place,
      FindsAll p file ((spans pageSize offset length).map Span.index) a places a' ∧
      extents = List.zipWith (fun span place => place.extent file.blockSize span)
        (spans pageSize offset length) places ∧
      pins'.pages = pins.pages ++ places.filterMap Place.page? := by
  induction length using Nat.strongRecOn generalizing offset pins a extents with
  | ind length ih =>
    rw [locateAll] at h
    split at h
    · rename_i hz
      obtain rfl : length = 0 := hz.resolve_left (by omega)
      simp only [Prod.mk.injEq, Except.ok.injEq] at h
      obtain ⟨⟨rfl, rfl⟩, rfl⟩ := h
      rw [spans_zero]
      exact ⟨[], .nil, rfl, (List.append_nil _).symm⟩
    · rename_i hz
      have hpos := Span.first_length_pos offset hz
      rw [spans_of_pos offset hp (by omega)]
      dsimp only at h
      generalize Span.first pageSize offset length = span at h hpos ⊢
      rcases hl : a.locate p file span with ⟨e | ⟨extent, page⟩, a₁⟩ <;> rw [hl] at h
      · simp at h
      obtain ⟨place, hfirst, -, hfound⟩ := (locate_ok_iff p).1 hl
      obtain ⟨rfl, rfl⟩ := Prod.mk.inj hfound
      dsimp only at h
      rcases hr : a₁.locateAll p pageSize file (offset + span.length) (length - span.length)
        (place.page?.elim pins pins.push) with ⟨e | ⟨more, pins₂⟩, a₂⟩ <;> rw [hr] at h
      · simp at h
      simp only [Prod.mk.injEq, Except.ok.injEq] at h
      obtain ⟨⟨rfl, rfl⟩, rfl⟩ := h
      obtain ⟨places, hrest, rfl, hpins⟩ := ih (length - span.length) (by omega) hr
      refine ⟨place :: places, .cons hfirst hrest, rfl, ?_⟩
      rw [hpins]
      cases place <;> simp [Place.page?, PinSet.push, List.filterMap_cons]

end Ambient

namespace World

variable {ε : Type} (p : Platform ε)

/-- The surroundings are asked where the pages of a chunk are: once for all pages of host memory,
and once for each page of a file. -/
inductive Finds (file : Option File) (w : World ε) : Chunk → Backing → World ε → Prop where
  | host {address length : Nat} {pages : List HostPage}
      (pinned : (p.pinHost (address - address % w.core.config.hostPageSize)
        (pageCount w.core.config.hostPageSize address length) w.ambient.outside).1.pages =
          .ok pages)
      (enough : pageCount w.core.config.hostPageSize address length ≤ pages.length) :
      Finds file w (.host address length) (.pinned pages)
        (w.pinHost p (address - address % w.core.config.hostPageSize)
          (pageCount w.core.config.hostPageSize address length)).2
  | file {f : File} {offset length : Nat} {places : List Place} {a : Ambient ε}
      (source : file = some f)
      (found : w.ambient.FindsAll p f (List.range' (offset / w.core.config.hostPageSize)
        (pageCount w.core.config.hostPageSize offset length)) places a) :
      Finds file w (.file offset length) (.found f places) { w with ambient := a }

/-- The same for a list of chunks, one after the other. -/
inductive FindsAll (file : Option File) : World ε → List Chunk → List Backing → World ε → Prop where
  | nil {w : World ε} : FindsAll file w [] [] w
  | cons {c : Chunk} {b : Backing} {chunks : List Chunk} {backings : List Backing}
      {w w₁ w' : World ε} (first : Finds p file w c b w₁)
      (rest : FindsAll file w₁ chunks backings w') :
      FindsAll file w (c :: chunks) (b :: backings) w'

/-- What pinning host pages answers is the answer of the surroundings. -/
theorem pinHost_ok_iff {address count : Nat} {pages : List HostPage} {w w' : World ε} :
    w.pinHost p address count = (.ok pages, w') ↔
      (p.pinHost address count w.ambient.outside).1.pages = .ok pages ∧
        (w.pinHost p address count).2 = w' := by
  unfold World.pinHost
  dsimp only
  cases (p.pinHost address count w.ambient.outside).1.pages <;> simp [eq_comm]

theorem pinHost_located {address count : Nat} {pages : List HostPage} {w : World ε}
    (h : (p.pinHost address count w.ambient.outside).1.pages = .ok pages) :
    (w.pinHost p address count).2.core.config = w.core.config ∧
      (w.pinHost p address count).2.transfers =
        w.transfers ++ [.hostPinned address count pages] := by
  have hquiet := Quiet.cleanupAll p (p.pinHost address count w.ambient.outside).1.cleanups
    { w with ambient := { w.ambient with
        outside := (p.pinHost address count w.ambient.outside).2 } }
  unfold World.pinHost
  dsimp only
  rw [h]
  exact ⟨hquiet.config, (Ambient.transfers_note _ _).trans
    (congrArg (· ++ [Event.hostPinned address count pages]) hquiet.transfers)⟩

/-- The answers are in the history. -/
theorem Finds.located {file : Option File} {c : Chunk} {b : Backing} {w w' : World ε}
    (h : Finds p file w c b w') :
    ∃ events, Chunk.Located w.core.config.hostPageSize file c b events ∧
      w'.core.config = w.core.config ∧ w'.transfers = w.transfers ++ events := by
  cases h with
  | host pinned enough => exact ⟨_, .host enough, pinHost_located p pinned⟩
  | file source found =>
    refine ⟨_, .file source ?_, rfl, found.transfers⟩
    rw [found.length_places, List.length_range']

theorem FindsAll.located {file : Option File} {chunks : List Chunk} {backings : List Backing}
    {w w' : World ε} (h : FindsAll p file w chunks backings w') :
    ∃ events, Chunk.LocatedAll w.core.config.hostPageSize file chunks backings events ∧
      w'.core.config = w.core.config ∧ w'.transfers = w.transfers ++ events := by
  induction h with
  | nil => exact ⟨[], .nil, rfl, (List.append_nil _).symm⟩
  | cons first _ ih =>
    obtain ⟨events, hevents, hconfig, htrans⟩ := first.located
    obtain ⟨more, hmore, hconfig', htrans'⟩ := ih
    rw [hconfig] at hmore hconfig'
    exact ⟨events ++ more, .cons hevents hmore, hconfig',
      by rw [htrans', htrans, List.append_assoc]⟩

theorem resolveHost_ok {file : Option File} {address length : Nat} {w w' : World ε}
    {extents : List Extent} {pins : List PinSet} (hc : (Chunk.host address length).IsRange)
    (hps : Word.isPowerOfTwo w.core.config.hostPageSize)
    (h : w.resolveHost p w.core.config.hostPageSize address length = (.ok (extents, pins), w')) :
    ∃ b, Finds p file w (.host address length) b w' ∧
      extents = Chunk.extents w.core.config.hostPageSize (.host address length) b ∧
      pins = b.pins := by
  obtain ⟨hne, hbound⟩ := hc
  simp only [Chunk.start, Chunk.length] at hne hbound
  have hp := Word.isPowerOfTwo_pos hps
  unfold World.resolveHost at h
  rw [Word.add?_eq_some_iff.2 ⟨rfl, hbound⟩] at h
  dsimp only at h
  rw [Word.alignDown_eq (by omega) hps, pageCount_eq_ceilDiv hp (by omega)] at h
  have hspans : (spans _ address length).length = _ := length_spans hp address (by omega)
  generalize hn : pageCount w.core.config.hostPageSize address length = count at h hspans
  rcases hg : w.pinHost p (address - address % w.core.config.hostPageSize) count with
    ⟨e | pages, w₁⟩ <;> rw [hg] at h
  · simp at h
  dsimp only at h
  split at h
  · simp at h
  rename_i henough
  simp only [Prod.mk.injEq, Except.ok.injEq] at h
  obtain ⟨⟨rfl, rfl⟩, rfl⟩ := h
  obtain ⟨hpinned, rfl⟩ := (pinHost_ok_iff p).1 hg
  subst hn
  refine ⟨.pinned pages, .host hpinned (by omega), ?_, rfl⟩
  unfold hostExtents Chunk.extents Backing.places
  rw [List.zipWith_map_right, ← hspans, zipWith_take_length]
  rfl

theorem resolveFile_ok {file : Option File} {offset length : Nat} {w w' : World ε}
    {extents : List Extent} {pins : List PinSet} (hc : (Chunk.file offset length).IsRange)
    (hp : 0 < w.core.config.hostPageSize)
    (h : w.liftAmbient (·.resolveFile p w.core.config.hostPageSize file offset length) =
      (.ok (extents, pins), w')) :
    ∃ b, Finds p file w (.file offset length) b w' ∧
      extents = Chunk.extents w.core.config.hostPageSize (.file offset length) b ∧
      pins = b.pins := by
  obtain ⟨hne, hbound⟩ := hc
  simp only [Chunk.start, Chunk.length] at hne hbound
  simp only [liftAmbient, Ambient.resolveFile] at h
  cases file with
  | none => simp at h
  | some f =>
    rw [Word.add?_eq_some_iff.2 ⟨rfl, hbound⟩] at h
    dsimp only at h
    rcases hl : w.ambient.locateAll p w.core.config.hostPageSize f offset length {} with
      ⟨e | ⟨found, pins₁⟩, a₁⟩ <;> rw [hl] at h
    · simp at h
    obtain ⟨places, hfinds, rfl, hpins⟩ := Ambient.locateAll_ok p hp hl
    simp only [Prod.mk.injEq, Except.ok.injEq] at h
    obtain ⟨⟨rfl, rfl⟩, rfl⟩ := h
    rw [map_index_spans hp offset (by omega)] at hfinds
    refine ⟨.found f places, .file rfl hfinds, rfl, ?_⟩
    obtain ⟨pages⟩ := pins₁
    simp only [List.nil_append] at hpins
    simp [PinSet.isEmpty, Backing.pins, hpins]

/-- Resolving a chunk. -/
theorem resolveChunk_ok {file : Option File} {chunk : Chunk} {w w' : World ε}
    {extents : List Extent} {pins : List PinSet} (hc : chunk.IsRange)
    (hps : Word.isPowerOfTwo w.core.config.hostPageSize)
    (h : w.resolveChunk p file chunk = (.ok (extents, pins), w')) :
    ∃ b, Finds p file w chunk b w' ∧
      extents = chunk.extents w.core.config.hostPageSize b ∧ pins = b.pins := by
  cases chunk with
  | host address length => exact resolveHost_ok p hc hps h
  | file offset length => exact resolveFile_ok p hc (Word.isPowerOfTwo_pos hps) h

/-- Resolving chunks, one after the other. -/
theorem resolve_finds {file : Option File} {chunks : List Chunk} {w w' : World ε}
    {extents : List Extent} {pins : List PinSet} (hc : ∀ c ∈ chunks, c.IsRange)
    (hps : Word.isPowerOfTwo w.core.config.hostPageSize)
    (h : w.resolve p file chunks = (.ok (extents, pins), w')) :
    ∃ backings, FindsAll p file w chunks backings w' ∧
      extents = (List.zipWith (Chunk.extents w.core.config.hostPageSize) chunks backings).flatten ∧
      pins = backings.flatMap Backing.pins := by
  induction chunks generalizing w extents pins with
  | nil =>
    simp only [World.resolve, Prod.mk.injEq, Except.ok.injEq] at h
    obtain ⟨⟨rfl, rfl⟩, rfl⟩ := h
    exact ⟨[], .nil, rfl, rfl⟩
  | cons c rest ih =>
    rw [World.resolve] at h
    rcases hr : w.resolveChunk p file c with ⟨e | ⟨first, pins₁⟩, w₁⟩ <;> rw [hr] at h
    · simp at h
    obtain ⟨b, hb, rfl, rfl⟩ := resolveChunk_ok p (hc c (by simp)) hps hr
    obtain ⟨-, -, hconfig, -⟩ := hb.located
    dsimp only at h
    rcases hm : w₁.resolve p file rest with ⟨e | ⟨more, pins₂⟩, w₂⟩ <;> rw [hm] at h
    · simp at h
    simp only [Prod.mk.injEq, Except.ok.injEq] at h
    obtain ⟨⟨rfl, rfl⟩, rfl⟩ := h
    obtain ⟨backings, hall, rfl, rfl⟩ := ih (fun c hm => hc c (by simp [hm])) (hconfig ▸ hps) hm
    rw [hconfig]
    exact ⟨b :: backings, .cons hb hall, rfl, rfl⟩

/-- Resolving chunks: their extents, one chunk after the other, and the references that keep them
readable. -/
theorem resolve_ok {file : Option File} {chunks : List Chunk} {w w' : World ε}
    {extents : List Extent} {pins : List PinSet} (hc : ∀ c ∈ chunks, c.IsRange)
    (hps : Word.isPowerOfTwo w.core.config.hostPageSize)
    (h : w.resolve p file chunks = (.ok (extents, pins), w')) :
    ∃ backings events,
      Chunk.LocatedAll w.core.config.hostPageSize file chunks backings events ∧
      extents = (List.zipWith (Chunk.extents w.core.config.hostPageSize) chunks backings).flatten ∧
      pins = backings.flatMap Backing.pins ∧
      w'.core.config = w.core.config ∧ w'.transfers = w.transfers ++ events := by
  obtain ⟨backings, hfinds, hextents, hpins⟩ := resolve_finds p hc hps h
  obtain ⟨events, hevents, hconfig, htrans⟩ := hfinds.located
  exact ⟨backings, events, hevents, hextents, hpins, hconfig, htrans⟩

end World

end PeerDma
