import PeerDma.Probe
import PeerDma.Proofs.InFlight

/-!
# Probing and reading

What a probe of a file range reports, a copy from the range finds, as long as the page cache and the
block map of the file stay as they are. A probe goes by page numbers up to a rounded end, a copy by
positions from span to span; both meet the same pages.

* `FileMap`, `Platform.Fixed`: surroundings whose look-ups have fixed answers.
* `pagesInRange_eq`: a probe goes through the pages that a copy touches.
* `Ambient.locateAll_fixed`, `Ambient.probe_fixed`: what a copy finds and what a probe reports.
* `Ambient.Between`: the page references that change hands on the way.
* `Ambient.probe_resolve_agree`: the whole of it.
-/

namespace PeerDma

/-! ## Lists of attempts -/

section

variable {α β κ : Type} {f : α → Except κ β}

/-- If every attempt succeeds, so do all together, with what each one finds. -/
theorem mapM_eq_ok {γ : Type} {xs : List α} {g : β → γ} {k : α → γ}
    (h : ∀ x ∈ xs, ∃ y, f x = .ok y ∧ k x = g y) :
    ∃ ys, xs.mapM f = .ok ys ∧ ys.map g = xs.map k := by
  induction xs with
  | nil => exact ⟨[], rfl, rfl⟩
  | cons x rest ih =>
    obtain ⟨y, hy, hk⟩ := h x (List.mem_cons_self ..)
    obtain ⟨ys, hys, hmap⟩ := ih fun x' hx' => h x' (List.mem_cons_of_mem _ hx')
    refine ⟨y :: ys, ?_, by rw [List.map_cons, List.map_cons, hmap, hk]⟩
    rw [List.mapM_cons, hy, hys]
    rfl

/-- The first attempt that fails is the one that counts. -/
theorem mapM_eq_error {before after : List α} {x : α} {e : κ}
    (hbefore : ∀ y ∈ before, ∃ z, f y = .ok z) (h : f x = .error e) :
    (before ++ x :: after).mapM f = .error e := by
  induction before with
  | nil =>
    rw [List.nil_append, List.mapM_cons, h]
    rfl
  | cons y rest ih =>
    obtain ⟨z, hz⟩ := hbefore y (List.mem_cons_self ..)
    rw [List.cons_append, List.mapM_cons, hz,
      ih fun y' hy' => hbefore y' (List.mem_cons_of_mem _ hy')]
    rfl

/-- Attempts of which one fails, and which can only fail in one way. -/
theorem mapM_eq_error_of {xs : List α} {e : κ} (h : ∀ x ∈ xs, ∀ e', f x = .error e' → e' = e)
    (hfails : ∃ x ∈ xs, ∃ e', f x = .error e') : xs.mapM f = .error e := by
  induction xs with
  | nil =>
    obtain ⟨x, hx, -⟩ := hfails
    cases hx
  | cons x rest ih =>
    rw [List.mapM_cons]
    rcases hx : f x with e' | y
    · rw [← h x (List.mem_cons_self ..) e' hx]
      rfl
    · have hrest : ∃ x ∈ rest, ∃ e', f x = .error e' := by
        obtain ⟨x', hmem, e', he'⟩ := hfails
        rcases List.mem_cons.1 hmem with rfl | hmem
        · cases hx.symm.trans he'
        · exact ⟨x', hmem, e', he'⟩
      rw [ih (fun x' hx' => h x' (List.mem_cons_of_mem _ hx')) hrest]
      rfl

end

/-! ## Pages of a range inside a file -/

/-- A probe goes through the pages that a copy touches. -/
theorem pagesInRange_eq {size page offset length : Nat} (hp : 0 < page) (hl : 0 < length)
    (hin : offset + length ≤ size) (hsize : size < Word.bound) :
    pagesInRange size page offset length =
      List.range' (offset / page) (pageCount page offset length) := by
  have hstop : min (Word.addSat offset length) size = offset + length := by
    unfold Word.addSat
    omega
  have hceil : Word.ceilDiv (offset + length) page = (offset + length - 1) / page + 1 := by
    rw [Word.ceilDiv, show offset + length + page - 1 = offset + length - 1 + page by omega,
      Nat.add_div_right _ hp]
  rw [pagesInRange, hstop, if_neg (by omega), hceil]
  rfl

/-! ## Fixed answers -/

/-- Which pages of a file are in the page cache, and where its disk blocks are. -/
structure FileMap where
  cached : Nat → Option HostPage
  block : Nat → Except Error Nat

/-- The place as probes report it. -/
def Place.location : Place → PageLocation
  | cached page => .cached page.dma
  | block number => .block number

namespace FileMap

variable (m : FileMap)

/-- Where a page is, or why that is not known. -/
def place (index : Nat) : Except Error Place :=
  match m.cached index with
  | some page => .ok (.cached page)
  | none => (m.block index).map .block

/-- What a probe reports of a page. -/
def probe (index : Nat) : PageProbe :=
  ⟨index, match m.place index with
    | .ok place => place.location
    | .error e => .unmapped e.errno⟩

/-- Where to read a span, and the page reference that goes with it. -/
def source (blockSize : Nat) (span : Span) : Except Error (Extent × Option HostPage) :=
  match m.place span.index with
  | .error e => .error e
  | .ok place =>
    if place.Addressable blockSize span.within then
      .ok (place.extent blockSize span, place.page?)
    else .error .invalidArgument

end FileMap

/-- As long as `I` holds of the surroundings, the look-ups in a file have the answers of the map,
and neither they nor giving page references back change that. -/
structure Platform.Fixed {ε : Type} (p : Platform ε) (file : File) (m : FileMap) (I : ε → Prop) :
    Prop where
  cached : ∀ x, I x → ∀ index, (p.cachedPage file index x).1 = m.cached index
  block : ∀ x, I x → ∀ index, (p.resolveBlock file index x).1 = m.block index
  afterCached : ∀ x, I x → ∀ index, I (p.cachedPage file index x).2
  afterBlock : ∀ x, I x → ∀ index, I (p.resolveBlock file index x).2
  afterRelease : ∀ x, I x → ∀ pages, I (p.release pages x)

/-! ## What a copy finds and what a probe reports -/

namespace Ambient

variable {ε : Type} {p : Platform ε} {file : File} {m : FileMap} {I : ε → Prop} {a : Ambient ε}

theorem cachedPage_fixed (h : p.Fixed file m I) (index : Nat) (ha : I a.outside) :
    (a.cachedPage p file index).1 = m.cached index ∧ I (a.cachedPage p file index).2.outside := by
  have hanswer := h.cached a.outside ha index
  have hkeeps := h.afterCached a.outside ha index
  unfold Ambient.cachedPage
  rw [← hanswer]
  dsimp only
  cases (p.cachedPage file index a.outside).1 <;> exact ⟨rfl, hkeeps⟩

theorem resolveBlock_fixed (h : p.Fixed file m I) (index : Nat) (ha : I a.outside) :
    (a.resolveBlock p file index).1 = m.block index ∧
      I (a.resolveBlock p file index).2.outside := by
  have hanswer := h.block a.outside ha index
  have hkeeps := h.afterBlock a.outside ha index
  unfold Ambient.resolveBlock
  rw [← hanswer]
  dsimp only
  cases (p.resolveBlock file index a.outside).1 <;> exact ⟨rfl, hkeeps⟩

theorem release_fixed (h : p.Fixed file m I) (pins : PinSet) (ha : I a.outside) :
    I (a.release p pins).outside := by
  unfold Ambient.release
  split
  · exact ha
  · exact h.afterRelease _ ha _

theorem locate_fixed (h : p.Fixed file m I) (span : Span) (ha : I a.outside) :
    (a.locate p file span).1 = m.source file.blockSize span ∧
      I (a.locate p file span).2.outside := by
  have hcached := h.cached a.outside ha span.index
  have ha₁ := h.afterCached a.outside ha span.index
  unfold FileMap.source FileMap.place
  rw [← hcached]
  rcases hc : p.cachedPage file span.index a.outside with ⟨_ | page, x⟩ <;> rw [hc] at ha₁
  · have hblock := h.block x ha₁ span.index
    have ha₂ := h.afterBlock x ha₁ span.index
    rw [locate_of_uncached p hc, ← hblock]
    rcases hb : p.resolveBlock file span.index x with ⟨e | number, x'⟩ <;> rw [hb] at ha₂ <;>
      exact ⟨rfl, ha₂⟩
  · rw [locate_of_cached p hc]
    exact ⟨rfl, ha₁⟩

theorem locateAll_fixed (h : p.Fixed file m I) {pageSize : Nat} (hp : 0 < pageSize)
    (offset length : Nat) (pins : PinSet) (ha : I a.outside) :
    (a.locateAll p pageSize file offset length pins).1 =
        ((spans pageSize offset length).mapM (m.source file.blockSize)).map
          (fun found => (found.map Prod.fst, ⟨pins.pages ++ found.filterMap Prod.snd⟩)) ∧
      I (a.locateAll p pageSize file offset length pins).2.outside := by
  induction length using Nat.strongRecOn generalizing offset pins a with
  | ind length ih =>
    rcases Nat.eq_zero_or_pos length with rfl | hl
    · rw [locateAll, dif_pos (.inr rfl), spans_zero]
      exact ⟨congrArg (fun pages => Except.ok ([], PinSet.mk pages)) (List.append_nil _).symm, ha⟩
    · have hpos : 0 < (Span.first pageSize offset length).length :=
        Span.first_length_pos offset (by omega)
      rw [locateAll, dif_neg (by omega), spans_of_pos offset hp hl, List.mapM_cons]
      dsimp only
      generalize Span.first pageSize offset length = span at hpos ⊢
      obtain ⟨hlocate, ha₁⟩ := locate_fixed h span ha
      generalize a.locate p file span = answer at hlocate ha₁ ⊢
      rw [← hlocate]
      obtain ⟨e | ⟨extent, page⟩, a₁⟩ := answer
      · exact ⟨rfl, release_fixed h pins ha₁⟩
      · obtain ⟨hrest, ha₂⟩ := ih (length - span.length) (by omega) (offset + span.length)
          (page.elim pins pins.push) ha₁
        dsimp only at hrest ha₂ ⊢
        generalize a₁.locateAll p pageSize file (offset + span.length) (length - span.length)
          (page.elim pins pins.push) = answer at hrest ha₂ ⊢
        obtain ⟨answer, a₂⟩ := answer
        obtain rfl : answer = _ := hrest
        rcases (spans pageSize (offset + span.length) (length - span.length)).mapM
          (m.source file.blockSize) with e | found
        · exact ⟨rfl, ha₂⟩
        · refine ⟨?_, ha₂⟩
          cases page with
          | none => rfl
          | some page =>
            exact congrArg (fun pages => Except.ok (extent :: found.map Prod.fst, PinSet.mk pages))
              (List.append_assoc pins.pages [page] (found.filterMap Prod.snd))

/-- Resolving a range finds the sources of its spans. -/
theorem resolveFile_fixed (h : p.Fixed file m I) {pageSize : Nat} (hp : 0 < pageSize)
    {offset length : Nat} (hbound : offset + length < Word.bound) (ha : I a.outside) :
    (a.resolveFile p pageSize (some file) offset length).1 =
        ((spans pageSize offset length).mapM (m.source file.blockSize)).map
          (fun found => (found.map Prod.fst,
            if (found.filterMap Prod.snd).isEmpty then [] else [⟨found.filterMap Prod.snd⟩])) ∧
      I (a.resolveFile p pageSize (some file) offset length).2.outside := by
  obtain ⟨hall, ha₁⟩ := locateAll_fixed h hp offset length {} ha
  unfold Ambient.resolveFile
  rw [Word.add?_eq_some_iff.2 ⟨rfl, hbound⟩]
  dsimp only at hall ⊢
  generalize a.locateAll p pageSize file offset length {} = answer at hall ha₁ ⊢
  obtain ⟨answer, a₁⟩ := answer
  obtain rfl : answer = _ := hall
  cases (spans pageSize offset length).mapM (m.source file.blockSize) <;> exact ⟨rfl, ha₁⟩

theorem probePage_fixed (h : p.Fixed file m I) (index : Nat) (ha : I a.outside) :
    (a.probePage p file index).1 = m.probe index ∧ I (a.probePage p file index).2.outside := by
  obtain ⟨hcached, ha₁⟩ := cachedPage_fixed h index ha
  unfold Ambient.probePage FileMap.probe FileMap.place
  generalize a.cachedPage p file index = answer at hcached ha₁ ⊢
  rw [← hcached]
  obtain ⟨_ | page, a₁⟩ := answer
  · obtain ⟨hblock, ha₂⟩ := resolveBlock_fixed h index ha₁
    dsimp only at hblock ha₂ ⊢
    generalize a₁.resolveBlock p file index = answer at hblock ha₂ ⊢
    rw [← hblock]
    obtain ⟨e | number, a₂⟩ := answer <;> exact ⟨rfl, ha₂⟩
  · exact ⟨rfl, release_fixed h ⟨[page]⟩ ha₁⟩

/-- A probe reports what the look-ups answer, page by page. -/
theorem probe_fixed (h : p.Fixed file m I) {visit : PageProbe → Ambient ε → Ambient ε}
    (hvisit : ∀ probe a, I a.outside → I (visit probe a).outside)
    (pageSize offset length : Nat) (ha : I a.outside) :
    (a.probe p visit pageSize file offset length).1 =
      (pagesInRange file.size pageSize offset length).map m.probe := by
  unfold Ambient.probe
  induction pagesInRange file.size pageSize offset length generalizing a with
  | nil => rfl
  | cons index rest ih =>
    obtain ⟨hprobe, ha₁⟩ := probePage_fixed h index ha
    unfold Ambient.probePages
    dsimp only
    rw [ih (hvisit _ _ ha₁), hprobe, List.map_cons]

/-! ## Page references -/

/-- Between two states, the page references that were held or have been obtained are given back or
still held. -/
def Between (a : Ambient ε) (before : Multiset HostPage) (a' : Ambient ε)
    (after : Multiset HostPage) : Prop :=
  ∃ newer, a'.history = newer ++ a.history ∧
    ↑(newer.flatMap Event.obtains) + before = ↑(newer.flatMap Event.returns) + after

namespace Between

variable {a' a'' : Ambient ε} {before between after : Multiset HostPage}

theorem refl (a : Ambient ε) (pages : Multiset HostPage) : Between a pages a pages :=
  ⟨[], rfl, rfl⟩

theorem trans (h : Between a before a' between) (h' : Between a' between a'' after) :
    Between a before a'' after := by
  obtain ⟨newer, hhistory, hpages⟩ := h
  obtain ⟨newer', hhistory', hpages'⟩ := h'
  refine ⟨newer' ++ newer, by rw [hhistory', hhistory, List.append_assoc], ?_⟩
  rw [List.flatMap_append, List.flatMap_append, ← Multiset.coe_add, ← Multiset.coe_add, add_assoc,
    hpages, add_left_comm, hpages', add_left_comm, add_assoc]

theorem cachedPage (p : Platform ε) (file : File) (index : Nat) (a : Ambient ε)
    (pages : Multiset HostPage) :
    Between a pages (a.cachedPage p file index).2
      (↑(a.cachedPage p file index).1.toList + pages) := by
  unfold Ambient.cachedPage
  dsimp only
  cases (p.cachedPage file index a.outside).1 with
  | none => exact ⟨[], rfl, by simp⟩
  | some page =>
    exact ⟨[.cacheHit file.descriptor index page], rfl, by simp [Event.obtains, Event.returns]⟩

theorem resolveBlock (p : Platform ε) (file : File) (index : Nat) (a : Ambient ε)
    (pages : Multiset HostPage) : Between a pages (a.resolveBlock p file index).2 pages := by
  unfold Ambient.resolveBlock
  dsimp only
  cases (p.resolveBlock file index a.outside).1 with
  | error e => exact ⟨[], rfl, rfl⟩
  | ok block =>
    exact ⟨[.blockFound file.descriptor index block], rfl, by simp [Event.obtains, Event.returns]⟩

theorem release (p : Platform ε) (pins : PinSet) (a : Ambient ε) :
    Between a pins.pages (a.release p pins) 0 := by
  unfold Ambient.release
  split
  · next hempty =>
    rw [PinSet.isEmpty, List.isEmpty_iff] at hempty
    exact ⟨[], rfl, by simp [hempty]⟩
  · exact ⟨[.released pins.pages], rfl, by simp [Event.obtains, Event.returns]⟩

theorem locate (p : Platform ε) (file : File) (span : Span) (a : Ambient ε)
    (pages : Multiset HostPage) :
    Between a pages (a.locate p file span).2
      (Moves.held Option.toList (a.locate p file span).1 + pages) := by
  have hcache := cachedPage p file span.index a pages
  unfold Ambient.locate
  generalize a.cachedPage p file span.index = answer at hcache
  obtain ⟨_ | page, a₁⟩ := answer
  · have hblock := hcache.trans (resolveBlock p file span.index a₁ _)
    dsimp only at hblock ⊢
    generalize a₁.resolveBlock p file span.index = answer at hblock
    obtain ⟨e | number, a₂⟩ := answer
    · exact hblock
    · dsimp only
      cases (Word.mul? number file.blockSize).bind (Word.add? · span.within) <;> exact hblock
  · exact hcache

/-- If a range cannot be read, the references taken on the way are given back. -/
theorem locateAll (p : Platform ε) (pageSize : Nat) (file : File) (offset length : Nat)
    (pins : PinSet) (a : Ambient ε) :
    Between a pins.pages (a.locateAll p pageSize file offset length pins).2
      (Moves.held PinSet.pages (a.locateAll p pageSize file offset length pins).1) := by
  induction length using Nat.strongRecOn generalizing offset pins a with
  | ind length ih =>
    rw [Ambient.locateAll]
    split
    · exact refl a _
    · next hmore =>
      have hpos := Span.first_length_pos offset hmore
      dsimp only
      generalize Span.first pageSize offset length = span at hpos ⊢
      have hlocate := locate p file span a pins.pages
      generalize a.locate p file span = answer at hlocate
      obtain ⟨e | ⟨extent, page⟩, a₁⟩ := answer
      · dsimp only [Moves.held] at hlocate
        rw [zero_add] at hlocate
        exact hlocate.trans (release p pins a₁)
      · have hpages : (↑page.toList + ↑pins.pages : Multiset HostPage) =
            ↑(page.elim pins pins.push).pages := by
          cases page with
          | none => exact zero_add _
          | some page =>
            rw [Option.elim_some, PinSet.coe_push]
            rfl
        dsimp only [Moves.held] at hlocate
        rw [hpages] at hlocate
        have hrest := hlocate.trans (ih (length - span.length) (by omega) (offset + span.length)
          (page.elim pins pins.push) a₁)
        dsimp only
        generalize a₁.locateAll p pageSize file (offset + span.length) (length - span.length)
          (page.elim pins pins.push) = answer at hrest ⊢
        obtain ⟨e | ⟨extents, pins'⟩, a₂⟩ := answer <;> exact hrest

/-- A file range that cannot be read leaves no reference behind. -/
theorem resolveFile_error {p : Platform ε} {pageSize : Nat} {file : Option File}
    {offset length : Nat} {a a' : Ambient ε} {e : Error}
    (h : a.resolveFile p pageSize file offset length = (.error e, a')) : Between a 0 a' 0 := by
  unfold Ambient.resolveFile at h
  cases file with
  | none =>
    cases h
    exact ⟨[.logged .noFile], rfl, rfl⟩
  | some file =>
    dsimp only at h
    cases hstop : Word.add? offset length with
    | none =>
      rw [hstop] at h
      cases h
      exact refl a 0
    | some stop =>
      rw [hstop] at h
      have hall := locateAll p pageSize file offset length {} a
      dsimp only at h
      generalize a.locateAll p pageSize file offset length {} = answer at h hall
      obtain ⟨e' | ⟨extents, pins⟩, a₁⟩ := answer
      · cases h
        exact hall
      · cases h

end Between

end Ambient

/-! ## A probe and what is resolved -/

namespace PageProbe

/-- Where to read what lies of `[offset, offset + length)` on the page of a probe: in the page
cache, or on its block, as far into it as into the page. -/
def extent? (pageSize blockSize offset length : Nat) (probe : PageProbe) : Option Extent :=
  let position := max offset (probe.index * pageSize)
  let size := min (offset + length) ((probe.index + 1) * pageSize) - position
  match probe.location with
  | .cached dma => some ⟨.memory, dma.raw + position % pageSize, size⟩
  | .block number => some ⟨.storage, number * blockSize + position % pageSize, size⟩
  | .unmapped _ => none

/-- The page of the probe is somewhere. -/
def Mapped (probe : PageProbe) : Prop := ∀ errno, probe.location ≠ .unmapped errno

/-- The block of the probe, if it has one, is too far out for its bytes to have addresses. -/
def OutOfRange (pageSize blockSize offset length : Nat) (probe : PageProbe) : Prop :=
  ∃ e, probe.extent? pageSize blockSize offset length = some e ∧
    e.channel = .storage ∧ Word.bound ≤ e.source

end PageProbe

namespace FileMap

variable {m : FileMap} {pageSize blockSize offset length index : Nat}

theorem extent?_of_place {place : Place} (h : m.place index = .ok place) :
    (m.probe index).extent? pageSize blockSize offset length =
      some (place.extent blockSize (Span.onPage pageSize offset length index)) := by
  unfold probe
  rw [h]
  cases place <;> rfl

theorem outOfRange_iff {place : Place} (h : m.place index = .ok place) :
    (m.probe index).OutOfRange pageSize blockSize offset length ↔
      ¬place.Addressable blockSize (Span.onPage pageSize offset length index).within := by
  unfold PageProbe.OutOfRange
  rw [extent?_of_place h]
  cases place with
  | cached page => simp [Place.extent, Place.byte, Place.Addressable]
  | block number => simp [Place.extent, Place.byte, Place.Addressable]

/-- A page that a probe finds somewhere is there. -/
theorem exists_place (h : (m.probe index).Mapped) : ∃ place, m.place index = .ok place := by
  cases hplace : m.place index with
  | ok place => exact ⟨place, rfl⟩
  | error e => exact absurd (by rw [probe, hplace]) (h e.errno)

/-- What is resolved for a page that a probe finds somewhere. -/
theorem source_onPage (pageSize blockSize offset length : Nat) (h : (m.probe index).Mapped) :
    (¬(m.probe index).OutOfRange pageSize blockSize offset length →
      ∃ found, m.source blockSize (Span.onPage pageSize offset length index) = .ok found ∧
        (m.probe index).extent? pageSize blockSize offset length = some found.1) ∧
    ((m.probe index).OutOfRange pageSize blockSize offset length →
      m.source blockSize (Span.onPage pageSize offset length index) =
        .error .invalidArgument) := by
  obtain ⟨place, hplace⟩ := exists_place h
  have hsource : m.place (Span.onPage pageSize offset length index).index = .ok place := hplace
  rw [outOfRange_iff hplace, extent?_of_place hplace, not_not, source, hsource]
  exact ⟨fun hin => ⟨_, if_pos hin, rfl⟩, fun hout => if_neg hout⟩

theorem source_onPage_unmapped (pageSize blockSize offset length : Nat) {errno : Int}
    (h : (m.probe index).location = .unmapped errno) :
    ∃ e, m.source blockSize (Span.onPage pageSize offset length index) = .error e ∧
      e.errno = errno := by
  unfold probe at h
  have hsource : m.place (Span.onPage pageSize offset length index).index = m.place index := rfl
  rw [source, hsource]
  cases hplace : m.place index with
  | ok place =>
    rw [hplace] at h
    cases place <;> cases h
  | error e =>
    rw [hplace] at h
    exact ⟨e, rfl, PageLocation.unmapped.inj h⟩

end FileMap

/-- **A copy finds what a probe reports.** Let the page cache and the block map of a file be fixed,
and let a range that is not empty lie inside the file.

* If a probe of the range finds every page somewhere, to resolve the range yields one extent for
  each probe, in order, with what lies of the range on its page: at that place in the page cache, or
  on its block. If a block is too far out for that, the argument is invalid.
* If a probe finds the first pages somewhere and not too far out, and the next one nowhere, the
  range cannot be resolved, and the error has the status code that the probe reports.
* If the range cannot be resolved, all page references that have been obtained are given back. -/
theorem Ambient.probe_resolve_agree {ε : Type} {p : Platform ε} {file : File} {m : FileMap}
    {I : ε → Prop} {pageSize offset length : Nat} {visit : PageProbe → Ambient ε → Ambient ε}
    {a a' : Ambient ε} (h : p.Fixed file m I) (hp : 0 < pageSize) (hl : 0 < length)
    (hin : offset + length ≤ file.size) (hsize : file.size < Word.bound)
    (hvisit : ∀ probe a, I a.outside → I (visit probe a).outside)
    (ha : I a.outside) (ha' : I a'.outside) :
    let probes := (a.probe p visit pageSize file offset length).1
    let result := a'.resolveFile p pageSize (some file) offset length
    let outOfRange := PageProbe.OutOfRange pageSize file.blockSize offset length
    ((∀ probe ∈ probes, probe.Mapped) →
      ((∀ probe ∈ probes, ¬outOfRange probe) → ∃ extents pins, result.1 = .ok (extents, pins) ∧
        extents.map some = probes.map (·.extent? pageSize file.blockSize offset length)) ∧
      ((∃ probe ∈ probes, outOfRange probe) → result.1 = .error .invalidArgument)) ∧
    (∀ before probe after errno, probes = before ++ probe :: after →
      (∀ x ∈ before, x.Mapped ∧ ¬outOfRange x) → probe.location = .unmapped errno →
      ∃ e, result.1 = .error e ∧ e.errno = errno) ∧
    ∀ e, result.1 = .error e → ∃ newer, result.2.history = newer ++ a'.history ∧
      (↑(newer.flatMap Event.obtains) : Multiset HostPage) = ↑(newer.flatMap Event.returns) := by
  intro probes result outOfRange
  have hprobes : probes =
      (List.range' (offset / pageSize) (pageCount pageSize offset length)).map m.probe := by
    rw [← pagesInRange_eq hp hl hin hsize]
    exact probe_fixed h hvisit pageSize offset length ha
  have hresult : result.1 = _ :=
    (resolveFile_fixed h hp (show offset + length < Word.bound by omega) ha').1
  rw [spans_eq_map hp offset hl] at hresult
  rw [hprobes]
  generalize List.range' (offset / pageSize) (pageCount pageSize offset length) = pages
    at hresult ⊢
  refine ⟨fun hmapped => ⟨fun hinRange => ?_, ?_⟩, ?_, fun e he => ?_⟩
  · have hsources : ∀ span ∈ pages.map (Span.onPage pageSize offset length),
        ∃ found, m.source file.blockSize span = .ok found ∧
          (m.probe span.index).extent? pageSize file.blockSize offset length = some found.1 :=
      List.forall_mem_map.2 fun index hindex =>
        (FileMap.source_onPage _ _ _ _ (hmapped _ (List.mem_map_of_mem hindex))).1
          (hinRange _ (List.mem_map_of_mem hindex))
    obtain ⟨found, hfound, hextents⟩ :=
      mapM_eq_ok (g := fun found : Extent × Option HostPage => some found.1) hsources
    rw [hfound] at hresult
    rw [List.map_map] at hextents
    refine ⟨_, _, hresult, ?_⟩
    rw [List.map_map, List.map_map]
    exact hextents
  · rintro ⟨probe, hprobe, hout⟩
    obtain ⟨index, hindex, rfl⟩ := List.mem_map.1 hprobe
    -- As every page is somewhere, no other error is possible.
    have honly : ∀ span ∈ pages.map (Span.onPage pageSize offset length),
        ∀ e, m.source file.blockSize span = .error e → e = .invalidArgument := by
      refine List.forall_mem_map.2 fun index' hindex' e he => ?_
      have hpage := FileMap.source_onPage pageSize file.blockSize offset length
        (hmapped _ (List.mem_map_of_mem hindex'))
      by_cases hout' : outOfRange (m.probe index')
      · exact Except.error.inj (he.symm.trans (hpage.2 hout'))
      · obtain ⟨found, hfound, -⟩ := hpage.1 hout'
        cases he.symm.trans hfound
    rw [hresult, mapM_eq_error_of honly
      ⟨_, List.mem_map_of_mem hindex, _, (FileMap.source_onPage _ _ _ _ (hmapped _ hprobe)).2 hout⟩]
    rfl
  · intro before probe after errno hsplit hbefore hunmapped
    obtain ⟨first, rest, rfl, rfl, hrest⟩ := List.map_eq_append_iff.1 hsplit
    obtain ⟨index, later, rfl, rfl, rfl⟩ := List.map_eq_cons_iff.1 hrest
    obtain ⟨e, he, herrno⟩ :=
      FileMap.source_onPage_unmapped pageSize file.blockSize offset length hunmapped
    have hfirst : ∀ span ∈ first.map (Span.onPage pageSize offset length),
        ∃ found, m.source file.blockSize span = .ok found := by
      refine List.forall_mem_map.2 fun i hi => ?_
      obtain ⟨hmapped, hinRange⟩ := hbefore _ (List.mem_map_of_mem hi)
      obtain ⟨found, hfound, -⟩ := (FileMap.source_onPage _ _ _ _ hmapped).1 hinRange
      exact ⟨found, hfound⟩
    refine ⟨e, ?_, herrno⟩
    rw [hresult, List.map_append, List.map_cons, mapM_eq_error hfirst he]
    rfl
  · obtain ⟨newer, hnewer, hpages⟩ := Between.resolveFile_error (Prod.ext he rfl)
    rw [add_zero, add_zero] at hpages
    exact ⟨newer, hnewer, hpages⟩

/-- The map of a file on the bench. -/
def Bench.Disk.map (disk : Disk) (file : File) : FileMap :=
  ⟨disk.cachedPage file, disk.resolveBlock⟩

theorem Bench.fixed (disk : Disk) (file : File) :
    Bench.platform.Fixed file (disk.map file) (·.disk = disk) where
  cached := by rintro b rfl index; rfl
  block := by rintro b rfl index; rfl
  afterCached := by rintro b rfl index; rfl
  afterBlock := by rintro b rfl index; rfl
  afterRelease := by rintro b rfl pages; rfl

/-- A file of four pages, the second of which is in the page cache. The block of the third cannot be
found: what lies before it can be copied. -/
theorem Ambient.probe_resolve_agree_third :
    let file : File := { Bench.plainFile .ext4 0x4000 with descriptor := 3 }
    let disk : Bench.Disk := { ({} : Bench.Disk).install 3 ⟨file, [1]⟩ with failAt := some 2 }
    let a : Ambient Bench := ⟨{ disk }, []⟩
    let visit : PageProbe → Ambient Bench → Ambient Bench := fun _ a => a
    Bench.platform.Fixed file (disk.map file) (·.disk = disk) ∧
      (∃ pins, (a.resolveFile Bench.platform 0x1000 (some file) 0x800 0x900).1 =
        .ok ([⟨.storage, 0x1000800, 0x800⟩, ⟨.memory, 0xC00000001000, 0x100⟩], pins)) ∧
      (a.probe Bench.platform visit 0x1000 file 0x800 0x3000).1 =
        [⟨0, .block 0x1000⟩, ⟨1, .cached ⟨0xC00000001000⟩⟩, ⟨2, .unmapped (-5)⟩,
          ⟨3, .block 0x1003⟩] ∧
      ∃ e, (a.resolveFile Bench.platform 0x1000 (some file) 0x800 0x3000).1 = .error e ∧
        e.errno = -5 := by
  intro file disk a visit
  have h := Bench.fixed disk file
  have hvisit (probe : PageProbe) (a : Ambient Bench) (ha : a.outside.disk = disk) :
      (visit probe a).outside.disk = disk := ha
  have hprobes : (a.probe Bench.platform visit 0x1000 file 0x800 0x3000).1 =
      [⟨0, .block 0x1000⟩, ⟨1, .cached ⟨0xC00000001000⟩⟩, ⟨2, .unmapped (-5)⟩,
        ⟨3, .block 0x1003⟩] := by decide +kernel
  have hprobes' : (a.probe Bench.platform visit 0x1000 file 0x800 0x900).1 =
      [⟨0, .block 0x1000⟩, ⟨1, .cached ⟨0xC00000001000⟩⟩] := by decide +kernel
  have hp : 0 < 0x1000 := by decide
  have ha : a.outside.disk = disk := rfl
  have hin : 0x800 + 0x900 ≤ file.size := by decide
  have hin' : 0x800 + 0x3000 ≤ file.size := by decide
  obtain ⟨hfound, -, -⟩ :=
    probe_resolve_agree h hp (by decide) hin (by decide) hvisit ha ha
  obtain ⟨-, hfails, -⟩ :=
    probe_resolve_agree h hp (by decide) hin' (by decide) hvisit ha ha
  rw [hprobes'] at hfound
  rw [hprobes] at hfails
  have hmapped : ∀ probe ∈ [(⟨0, .block 0x1000⟩ : PageProbe), ⟨1, .cached ⟨0xC00000001000⟩⟩],
      probe.Mapped := by simp [PageProbe.Mapped]
  have hinRange (length : Nat) :
      ∀ probe ∈ [(⟨0, .block 0x1000⟩ : PageProbe), ⟨1, .cached ⟨0xC00000001000⟩⟩],
        ¬probe.OutOfRange 0x1000 file.blockSize 0x800 length := by
    have hblock : file.blockSize = 0x1000 := rfl
    simp [PageProbe.OutOfRange, PageProbe.extent?, hblock, Word.bound]
  refine ⟨h, ?_, hprobes, ?_⟩
  · obtain ⟨extents, pins, hresult, hextents⟩ := (hfound hmapped).1 (hinRange 0x900)
    have hsources : extents =
        [⟨.storage, 0x1000800, 0x800⟩, ⟨.memory, 0xC00000001000, 0x100⟩] :=
      List.map_injective_iff.2 (Option.some_injective _) (hextents.trans (by decide))
    exact ⟨pins, hsources ▸ hresult⟩
  · exact hfails [⟨0, .block 0x1000⟩, ⟨1, .cached ⟨0xC00000001000⟩⟩] _ _ _ rfl
      (fun probe hprobe => ⟨hmapped probe hprobe, hinRange 0x3000 probe hprobe⟩) rfl

end PeerDma
