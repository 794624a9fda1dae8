import PeerDma.Proofs.Transfer

/-!
# The extents of chunks

Pages are counted by a division that rounds up, and extents are cut byte by byte. The two agree for
any start and end: a chunk has as many extents as pages, they lie end to end over it, and each is
read from the page that its bytes are on. A page in host memory is held while it is read.

* `spans_cut`: where a span of a range starts, and on which page.
* `Chunk.Tiled`: what the extents of a chunk are like.
* `World.resolve_tiles`: the extents of chunks, and what has been asked for them.
-/

namespace PeerDma

/-- Each span of a range starts where those before it end, and is on the next page. -/
theorem spans_cut {page : Nat} (hp : 0 < page) {before after : List Span} {s : Span}
    {start length : Nat} (h : spans page start length = before ++ s :: after) :
    s.within = (start + (before.map Span.length).sum) % page ∧
      (start + (before.map Span.length).sum) / page = start / page + before.length ∧
      0 < s.length ∧ s.within + s.length ≤ page := by
  have hl : 0 < length := by
    rcases Nat.eq_zero_or_pos length with rfl | hl
    · simp at h
    · exact hl
  induction before generalizing start length with
  | nil =>
    rw [spans_of_pos start hp hl] at h
    obtain ⟨rfl, -⟩ := List.cons.inj h
    exact ⟨rfl, rfl, Span.first_length_pos start (by omega), Span.first_within hp start length⟩
  | cons b before ih =>
    rw [spans_of_pos start hp hl] at h
    obtain ⟨rfl, hrest⟩ := List.cons.inj h
    have hmore : 0 < length - (Span.first page start length).length := by
      rcases Nat.eq_zero_or_pos (length - (Span.first page start length).length) with he | hmore
      · rw [he, spans_zero] at hrest
        simp at hrest
      · exact hmore
    have hnext : start + (Span.first page start length).length = (start / page + 1) * page :=
      Span.first_next hp (by omega)
    obtain ⟨hwithin, hindex, hs⟩ := ih hrest hmore
    rw [List.map_cons, List.sum_cons, ← Nat.add_assoc]
    refine ⟨hwithin, ?_, hs⟩
    rw [hindex, hnext, Nat.mul_div_cancel _ hp, List.length_cons]
    omega

/-- An extent is as long as the span that it is read for. -/
theorem map_length_extents (blockSize : Nat) {cut : List Span} {places : List Place}
    (h : cut.length ≤ places.length) :
    (List.zipWith (fun span place => Place.extent blockSize span place) cut places).map
      Extent.length = cut.map Span.length := by
  induction cut generalizing places with
  | nil => rfl
  | cons s cut ih =>
    cases places with
    | nil => simp at h
    | cons place places =>
      rw [List.zipWith_cons_cons, List.map_cons, ih (by simpa using h)]
      rfl

namespace Chunk

/-- The extents of a chunk lie end to end, each inside a page. -/
structure Tiled (pageSize : Nat) (c : Chunk) (b : Backing) (extents : List Extent) : Prop where
  /-- There is one for each page of the chunk, however many pages are at hand. -/
  count : extents.length = pageCount pageSize c.start c.length
  /-- They add up to the chunk. -/
  total : (extents.map Extent.length).sum = c.length
  /-- Each starts in the chunk where those before it end. It does not leave its page, and is read
  from the place of that page. If this is in host memory, the page is held. -/
  each : ∀ before e after, extents = before ++ e :: after →
    let position := c.start + (before.map Extent.length).sum
    0 < e.length ∧ position / pageSize = c.start / pageSize + before.length ∧
      position % pageSize + e.length ≤ pageSize ∧
      ∃ place ∈ b.places[before.length]?,
        (e.channel, e.source) = place.byte b.blockSize (position % pageSize) ∧
        ∀ page ∈ place.page?, page ∈ b.pins.flatMap PinSet.pages

theorem tiled_extents {pageSize : Nat} (hp : 0 < pageSize) {c : Chunk} (hc : 0 < c.length)
    {b : Backing} (hcount : pageCount pageSize c.start c.length ≤ b.places.length) :
    c.Tiled pageSize b (c.extents pageSize b) where
  count := by
    rw [extents, List.length_zipWith, length_spans hp _ hc, Nat.min_eq_left hcount]
  total := by
    rw [extents, map_length_extents _ (by rwa [length_spans hp _ hc]), sum_length_spans hp]
  each := by
    intro before e after h position
    obtain ⟨cut, rest, items, others, hsame, hspans, hplaces, rfl, hrest⟩ :=
      List.zipWith_eq_append_iff.1 h
    obtain ⟨s, rest, place, others, rfl, rfl, rfl, rfl⟩ := List.zipWith_eq_cons_iff.1 hrest.symm
    obtain ⟨hwithin, hindex, hpos, hpage⟩ := spans_cut hp hspans
    rw [← map_length_extents b.blockSize (Nat.le_of_eq hsame)] at hwithin hindex
    have hlength : (List.zipWith (fun span place => Place.extent b.blockSize span place)
        cut items).length = items.length := by
      rw [List.length_zipWith, hsame, Nat.min_self]
    have hplace : b.places[items.length]? = some place := by
      rw [hplaces, List.getElem?_append_right (Nat.le_refl _), Nat.sub_self]
      rfl
    rw [hlength, hplace]
    refine ⟨hpos, hsame ▸ hindex, hwithin ▸ hpage, place, rfl, ?_, ?_⟩
    · rw [← hwithin]
      rfl
    · exact b.page?_mem_pins (by rw [hplaces]; simp)

theorem LocatedAll.count_le {pageSize : Nat} {file : Option File} {chunks : List Chunk}
    {backings : List Backing} {events : List Event}
    (h : LocatedAll pageSize file chunks backings events) :
    ∀ x ∈ chunks.zip backings, pageCount pageSize x.1.start x.1.length ≤ x.2.places.length := by
  induction h with
  | nil => simp
  | cons first _ ih =>
    rw [List.zip_cons_cons]
    exact List.forall_mem_cons.2 ⟨first.count_le, ih⟩

/-- An extent in host memory is read from one of the pages that are held. -/
theorem Tiled.held {pageSize : Nat} {c : Chunk} {b : Backing} {extents : List Extent}
    (h : c.Tiled pageSize b extents) {e : Extent} (he : e ∈ extents)
    (hmemory : e.channel = .memory) :
    ∃ page ∈ b.pins.flatMap PinSet.pages,
      page.dma.raw ≤ e.source ∧ e.source + e.length ≤ page.dma.raw + pageSize := by
  obtain ⟨before, after, hsplit⟩ := List.append_of_mem he
  obtain ⟨-, -, hpage, place, -, hsource, hheld⟩ := h.each before e after hsplit
  cases place with
  | cached page =>
    obtain ⟨-, hsource⟩ := Prod.mk.inj hsource
    exact ⟨page, hheld page rfl, by omega, by omega⟩
  | block number =>
    obtain ⟨hchannel, -⟩ := Prod.mk.inj hsource
    rw [hmemory] at hchannel
    cases hchannel

end Chunk

namespace World

variable {ε : Type} {p : Platform ε} {w w' : World ε} {file : Option File}

/-- The extents of chunks that can be copied tile them, and are read from pages that are held. -/
theorem resolve_tiles {chunks : List Chunk} {total : Nat} {extents : List Extent}
    {pins : List PinSet} (hchunks : Chunk.totalLength chunks = .ok total)
    (hps : Word.isPowerOfTwo w.core.config.hostPageSize)
    (h : w.resolve p file chunks = (.ok (extents, pins), w')) :
    let pageSize := w.core.config.hostPageSize
    ∃ backings, w.FindsAll p file chunks backings w' ∧
      extents = (List.zipWith (Chunk.extents pageSize) chunks backings).flatten ∧
      (∀ x ∈ chunks.zip backings, x.1.Tiled pageSize x.2 (x.1.extents pageSize x.2)) ∧
      pins = backings.flatMap Backing.pins ∧
      ∀ e ∈ extents, e.channel = .memory → ∃ page ∈ pins.flatMap PinSet.pages,
        page.dma.raw ≤ e.source ∧ e.source + e.length ≤ page.dma.raw + pageSize := by
  intro pageSize
  obtain ⟨hranges, -⟩ := Chunk.totalLength_ok hchunks
  obtain ⟨backings, hfinds, rfl, rfl⟩ := resolve_finds p hranges hps h
  obtain ⟨events, hlocated, -, -⟩ := hfinds.located
  have htiled : ∀ x ∈ chunks.zip backings, x.1.Tiled pageSize x.2 (x.1.extents pageSize x.2) := by
    intro x hx
    have hpos : 0 < x.1.length := Nat.pos_of_ne_zero (hranges x.1 (List.of_mem_zip hx).1).1
    exact Chunk.tiled_extents (Word.isPowerOfTwo_pos hps) hpos (hlocated.count_le x hx)
  refine ⟨backings, hfinds, rfl, htiled, rfl, fun e he hmemory => ?_⟩
  obtain ⟨part, hpart, he⟩ := List.mem_flatten.1 he
  rw [← List.map_uncurry_zip_eq_zipWith] at hpart
  obtain ⟨x, hx, rfl⟩ := List.mem_map.1 hpart
  obtain ⟨page, hpage, hwithin⟩ := (htiled x hx).held he hmemory
  refine ⟨page, ?_, hwithin⟩
  obtain ⟨set, hset, hpage⟩ := List.mem_flatMap.1 hpage
  exact List.mem_flatMap.2 ⟨set, List.mem_flatMap.2 ⟨x.2, (List.of_mem_zip hx).2, hset⟩, hpage⟩

/-- Two pages of host memory of which little is copied, pinned with one page too many, and two pages
of a file, the second of which is in the page cache. -/
theorem resolve_tiles_spare :
    let file : File := { Bench.plainFile .ext4 0x4000 with descriptor := 3 }
    let disk : Bench.Disk := ({} : Bench.Disk).install 3 ⟨file, [1]⟩
    let w : World Bench := ⟨.create {} {}, ⟨{ disk, host := { extra := 1 } }, []⟩⟩
    let pageSize := w.core.config.hostPageSize
    let chunks : List Chunk := [.host 0x5FF0 0x20, .file 0x800 0x900]
    let extents : List Extent :=
      [⟨.memory, 0x800000005FF0, 0x10⟩, ⟨.memory, 0x800000006000, 0x10⟩,
        ⟨.storage, 0x1000800, 0x800⟩, ⟨.memory, 0xC00000001000, 0x100⟩]
    Chunk.totalLength chunks = .ok 0x920 ∧ Word.isPowerOfTwo pageSize ∧
      ∃ pins w' backings, w.resolve Bench.platform (some file) chunks = (.ok (extents, pins), w') ∧
        (pins.map PinSet.pages).map List.length = [3, 1] ∧
        w.FindsAll Bench.platform (some file) chunks backings w' ∧
        ∀ x ∈ chunks.zip backings, x.1.Tiled pageSize x.2 (x.1.extents pageSize x.2) := by
  intro file disk w pageSize chunks extents
  have hchunks : Chunk.totalLength chunks = .ok 0x920 := rfl
  have hps : Word.isPowerOfTwo pageSize := by decide
  have hanswer : (w.resolve Bench.platform (some file) chunks).1.toOption.map
      (fun found => (found.1, (found.2.map PinSet.pages).map List.length)) =
        some (extents, [3, 1]) := by decide +kernel
  rcases hr : w.resolve Bench.platform (some file) chunks with ⟨e | ⟨found, pins⟩, w'⟩ <;>
    rw [hr] at hanswer
  · cases hanswer
  obtain ⟨rfl, hpins⟩ := Prod.mk.inj (Option.some.inj hanswer)
  obtain ⟨backings, hfinds, -, htiled, -⟩ := resolve_tiles hchunks hps hr
  exact ⟨hchunks, hps, pins, w', backings, rfl, hpins, hfinds, htiled⟩

end World

end PeerDma
