import PeerDma.Proofs.Fewest
import PeerDma.Proofs.Lookups
import PeerDma.Proofs.Timing
import PeerDma.Proofs.Verdicts

/-!
# Requests cut up

How a request is cut into chunks makes no difference to what is submitted, as long as the
surroundings name the same place for a page each time that they are asked. A page that is cut is
asked for once for each piece, and the pieces are joined again on the way to the channels.

* `Chunk.Pieces`, `Chunk.Cut`: the ways to cut chunks.
* `mapM_spans`: what a walk over the spans of a range finds, byte by byte.
* `SourceMap`, `Platform.Serves`: surroundings whose answers are fixed.
* `World.Keeps`, `World.resolve_serves`: what chunks resolve to hinges on their bytes alone.
* `World.prepare_cut`, `World.copyAsync_serves`: so do the admission and the submissions.
* `Reach.cut_submissions`: the whole of it.
-/

namespace PeerDma

/-! ## Walks over lists -/

section

variable {α β γ κ : Type}

/-- Attempts that all hinge on the same one. -/
theorem mapM_map_of_const {attempt : Except κ β} {g : α → β → γ} {xs : List α} (h : xs ≠ []) :
    xs.mapM (fun x => attempt.map (g x)) = attempt.map fun y => xs.map (g · y) := by
  cases attempt with
  | error e =>
    obtain ⟨x, rest, rfl⟩ := List.exists_cons_of_ne_nil h
    rfl
  | ok y =>
    have hall : ∀ x ∈ xs, ∃ z, (Except.ok y : Except κ β).map (g x) = .ok z ∧ g x y = id z :=
      fun x _ => ⟨g x y, rfl, rfl⟩
    obtain ⟨zs, hzs, hmap⟩ := mapM_eq_ok hall
    rw [hzs]
    exact congrArg Except.ok ((List.map_id zs).symm.trans hmap)

theorem mapM_congr_left {f g : α → Except κ β} {xs : List α} (h : ∀ x ∈ xs, f x = g x) :
    xs.mapM f = xs.mapM g := by
  have hf := List.mapM_map (f := f) (g := id) (l := xs)
  have hg := List.mapM_map (f := g) (g := id) (l := xs)
  rw [List.map_congr_left h] at hf
  exact hf.symm.trans hg

/-- What is done to the findings afterwards can be done to each on the spot. -/
theorem map_mapM (f : α → Except κ β) (g : β → γ) (xs : List α) :
    (xs.mapM f).map (List.map g) = xs.mapM fun x => (f x).map g := by
  induction xs with
  | nil => rfl
  | cons x rest ih =>
    rw [List.mapM_cons, List.mapM_cons, ← ih]
    cases f x with
    | error e => rfl
    | ok y => cases rest.mapM f <;> rfl

end

/-! ## Cuts -/

namespace Chunk

/-- The chunk with another range of its source. -/
def withRange (start length : Nat) : Chunk → Chunk
  | host .. => host start length
  | file .. => file start length

/-- The pieces lie end to end over the range of a chunk, and none is empty. -/
inductive Pieces : Chunk → List Chunk → Prop where
  | whole (c : Chunk) : Pieces c [c]
  | cut {c : Chunk} {size : Nat} {pieces : List Chunk} (pos : 0 < size) (lt : size < c.length)
      (rest : Pieces (c.withRange (c.start + size) (c.length - size)) pieces) :
      Pieces c (c.withRange c.start size :: pieces)

/-- Every chunk is cut into pieces, or left whole. -/
inductive Cut : List Chunk → List Chunk → Prop where
  | nil : Cut [] []
  | cons {c : Chunk} {pieces chunks others : List Chunk} (first : Pieces c pieces)
      (rest : Cut chunks others) : Cut (c :: chunks) (pieces ++ others)

@[simp] theorem start_withRange (c : Chunk) (start length : Nat) :
    (c.withRange start length).start = start := by
  cases c <;> rfl

@[simp] theorem length_withRange (c : Chunk) (start length : Nat) :
    (c.withRange start length).length = length := by
  cases c <;> rfl

@[simp] theorem isFile_withRange (c : Chunk) (start length : Nat) :
    (c.withRange start length).isFile = c.isFile := by
  cases c <;> rfl

/-- The bytes of a chunk, by the kind of their source and their position in it. -/
def positions (c : Chunk) : List (Bool × Nat) :=
  (List.range' c.start c.length).map (Prod.mk c.isFile)

/-- Pieces are all of the chunk and nothing else. -/
theorem Pieces.keeps {c : Chunk} {pieces : List Chunk} (h : c.Pieces pieces) (hc : c.IsRange) :
    (∀ piece ∈ pieces, piece.IsRange) ∧ pieces ≠ [] ∧
      (pieces.map length).sum = c.length ∧ pieces.flatMap positions = c.positions := by
  induction h with
  | whole c => exact ⟨by simpa using hc, by simp⟩
  | @cut c size pieces hpos hlt rest ih =>
    obtain ⟨hne, hbound⟩ := hc
    obtain ⟨hranges, -, hsum, hpositions⟩ := ih
      ⟨by rw [length_withRange]; omega, by rw [start_withRange, length_withRange]; omega⟩
    rw [length_withRange] at hsum
    refine ⟨List.forall_mem_cons.2 ⟨⟨?_, ?_⟩, hranges⟩, List.cons_ne_nil _ _, ?_, ?_⟩
    · rw [length_withRange]
      omega
    · rw [start_withRange, length_withRange]
      omega
    · rw [List.map_cons, List.sum_cons, hsum, length_withRange]
      omega
    · rw [List.flatMap_cons, hpositions]
      simp only [positions, start_withRange, length_withRange, isFile_withRange]
      rw [← List.map_append, List.range'_append_1, Nat.add_sub_of_le hlt.le]

theorem addLengths_lt {chunks : List Chunk} {index total sum : Nat} (ht : total < Word.bound)
    (h : addLengths index total chunks = .ok sum) : sum < Word.bound := by
  induction chunks generalizing index total with
  | nil => exact Except.ok.inj h ▸ ht
  | cons c rest ih =>
    rw [addLengths] at h
    split at h
    · cases hadd : Word.add? total c.length with
      | none =>
        rw [hadd] at h
        cases h
      | some next =>
        rw [hadd] at h
        exact ih (Word.add?_eq_some_iff.1 hadd).2 h
    · cases h

/-- Chunks that can be copied add up if the sum is a word. -/
theorem addLengths_eq {chunks : List Chunk} (hc : ∀ c ∈ chunks, c.IsRange) {index total : Nat}
    (hbound : total + (chunks.map length).sum < Word.bound) :
    addLengths index total chunks = .ok (total + (chunks.map length).sum) := by
  induction chunks generalizing index total with
  | nil => rfl
  | cons c rest ih =>
    rw [List.map_cons, List.sum_cons] at hbound ⊢
    rw [addLengths, if_pos (hc c (List.mem_cons_self ..)),
      Word.add?_eq_some_iff.2 ⟨rfl, by omega⟩]
    dsimp only
    rw [ih (fun c' hc' => hc c' (List.mem_cons_of_mem _ hc')) (by omega), Nat.add_assoc]

theorem Pieces.needsFile {c : Chunk} {pieces : List Chunk} (h : c.Pieces pieces) :
    needsFile pieces = c.isFile := by
  induction h with
  | whole c => exact Bool.or_false _
  | @cut c size pieces _ _ _ ih =>
    have hrest : pieces.any isFile = c.isFile := ih.trans (isFile_withRange ..)
    rw [Chunk.needsFile, List.any_cons, hrest, isFile_withRange, Bool.or_self]

/-- Chunks that are cut up can be copied as before. -/
theorem Cut.keeps {chunks others : List Chunk} (h : Cut chunks others)
    (hc : ∀ c ∈ chunks, c.IsRange) :
    (∀ c ∈ others, c.IsRange) ∧ (others = [] ↔ chunks = []) ∧
      (others.map length).sum = (chunks.map length).sum ∧ needsFile others = needsFile chunks ∧
      others.flatMap positions = chunks.flatMap positions := by
  induction h with
  | nil => exact ⟨nofun, Iff.rfl, rfl, rfl, rfl⟩
  | @cons c pieces chunks others first rest ih =>
    obtain ⟨hfirst, hne, hsum, hpositions⟩ := first.keeps (hc c (List.mem_cons_self ..))
    obtain ⟨hranges, -, hsum', hfile, hpositions'⟩ :=
      ih fun c hc' => hc c (List.mem_cons_of_mem _ hc')
    refine ⟨List.forall_mem_append.2 ⟨hfirst, hranges⟩, by simp [hne], ?_, ?_, ?_⟩
    · rw [List.map_append, List.sum_append, List.map_cons, List.sum_cons, hsum, hsum']
    · have hneeds : pieces.any isFile = c.isFile := first.needsFile
      rw [needsFile, List.any_append, hneeds, show others.any isFile = _ from hfile]
      rfl
    · rw [List.flatMap_append, List.flatMap_cons, hpositions, hpositions']

theorem Cut.totalLength {chunks others : List Chunk} {total : Nat} (h : Cut chunks others)
    (htotal : totalLength chunks = .ok total) : Chunk.totalLength others = .ok total := by
  obtain ⟨hranges, rfl⟩ := totalLength_ok htotal
  obtain ⟨hranges', hnil, hsum, -⟩ := h.keeps hranges
  unfold Chunk.totalLength at htotal ⊢
  split at htotal
  · cases htotal
  · next hne =>
    have hbound := addLengths_lt (by decide) htotal
    rw [if_neg (by simpa [hnil] using hne), addLengths_eq hranges' (by omega), Nat.zero_add, hsum]

end Chunk

/-! ## Bytes of sources -/

theorem spans_within {page start length : Nat} (hp : 0 < page) :
    ∀ s ∈ spans page start length, s.within < page ∧ s.within < start + length := by
  fun_induction spans page start length with
  | case1 => simp
  | case2 start length _ span hpos ih =>
    have hle : span.length ≤ length := Span.first_length_le ..
    have hwithin : span.within = start % page := rfl
    have hmod := Nat.mod_lt start hp
    have hmodle := Nat.mod_le start page
    intro s hs
    rcases List.mem_cons.1 hs with rfl | hs
    · omega
    · obtain ⟨hin, hlt⟩ := ih s hs
      omega

/-- A walk over the spans of a range finds what a walk over its bytes finds. -/
theorem mapM_spans {κ : Type} {page : Nat} (hp : 0 < page) (pageAt : Nat → Except κ Place)
    (blockSize start length : Nat) :
    ((spans page start length).mapM fun span =>
        (pageAt span.index).map (Place.extent blockSize span)).map (·.flatMap Extent.bytes) =
      (List.range' start length).mapM fun position =>
        (pageAt (position / page)).map (Place.byte blockSize (position % page)) := by
  induction length using Nat.strongRecOn generalizing start with
  | ind length ih =>
    rcases Nat.eq_zero_or_pos length with rfl | hl
    · rw [spans_zero]
      rfl
    have hpos : 0 < (Span.first page start length).length := Span.first_length_pos start (by omega)
    have hle := Span.first_length_le page start length
    have hwithin := Span.first_within hp start length
    have hindex : (Span.first page start length).index = start / page := rfl
    have hoffset : (Span.first page start length).within = start % page := rfl
    rw [spans_of_pos start hp hl, List.mapM_cons]
    generalize Span.first page start length = span at hpos hle hwithin hindex hoffset ⊢
    have hrest := ih (length - span.length) (by omega) (start + span.length)
    -- All bytes of the first span are on one page.
    have hfirst : ((List.range' start span.length).mapM fun position =>
          (pageAt (position / page)).map (Place.byte blockSize (position % page))) =
        (pageAt span.index).map fun place => (place.extent blockSize span).bytes := by
      have hsame : ∀ position ∈ List.range' start span.length,
          (pageAt (position / page)).map (Place.byte blockSize (position % page)) =
            (pageAt span.index).map (Place.byte blockSize (position % page)) := by
        intro position hposition
        obtain ⟨k, hk, rfl⟩ := List.mem_range'.1 hposition
        rw [Nat.one_mul, div_add_of_lt (by omega), hindex]
      rw [mapM_congr_left hsame, mapM_map_of_const (by simpa using hpos.ne')]
      congr 1
      funext place
      rw [Place.bytes_extent, List.range'_eq_map_range, List.map_map]
      refine List.map_congr_left fun k hk => ?_
      have hk := List.mem_range.1 hk
      rw [Function.comp_apply, mod_add_of_lt (by omega), hoffset]
    rw [← Nat.add_sub_of_le hle, ← List.range'_append_1, List.mapM_append, hfirst, ← hrest,
      Nat.add_sub_cancel_left]
    cases pageAt span.index with
    | error e => rfl
    | ok place =>
      cases (spans page (start + span.length) (length - span.length)).mapM fun span =>
        (pageAt span.index).map (Place.extent blockSize span) <;> rfl

/-- A page of a size that is a power of two has addresses for all of its bytes or for none. -/
theorem Place.addressable_iff {blockSize within : Nat} (h : Word.isPowerOfTwo blockSize)
    (hin : within < blockSize) (hbound : within < Word.bound) (place : Place) :
    place.Addressable blockSize within ↔ place.Addressable blockSize 0 := by
  cases place with
  | cached page => exact Iff.rfl
  | block number =>
    show number * blockSize + within < Word.bound ↔ number * blockSize + 0 < Word.bound
    refine ⟨fun hlt => by omega, fun hlt => ?_⟩
    obtain ⟨k, rfl⟩ := Word.isPowerOfTwo_iff.1 h
    rcases Nat.le_total k 64 with hk | hk
    · have hsplit : Word.bound = 2 ^ (64 - k) * 2 ^ k := by
        rw [← Nat.pow_add, Nat.sub_add_cancel hk]
        rfl
      have hnumber : number + 1 ≤ 2 ^ (64 - k) := by
        refine Nat.lt_of_mul_lt_mul_right (a := 2 ^ k) ?_
        rw [← hsplit]
        omega
      calc number * 2 ^ k + within < (number + 1) * 2 ^ k := by rw [Nat.succ_mul]; omega
        _ ≤ 2 ^ (64 - k) * 2 ^ k := Nat.mul_le_mul_right _ hnumber
        _ = Word.bound := hsplit.symm
    -- So large a page is the only one.
    · have hle : Word.bound ≤ 2 ^ k := Word.bound_le hk
      obtain rfl : number = 0 := by
        by_contra hne
        have := Nat.le_mul_of_pos_left (2 ^ k) (Nat.pos_of_ne_zero hne)
        omega
      omega

/-- Where the pages of the sources of requests are: those of host memory, by their number, and those
of files. -/
structure SourceMap where
  host : Nat → HostPage
  file : File → FileMap

namespace SourceMap

variable (m : SourceMap)

/-- Where a page of host memory or of the file of a request is, or why it cannot be read. -/
def page (pageSize : Nat) (file : Option File) (isFile : Bool) (index : Nat) :
    Except Error Place :=
  if isFile then
    match file with
    | none => .error .badDescriptor
    | some file =>
      match (m.file file).place index with
      | .error e => .error e
      | .ok place =>
        if place.Addressable pageSize 0 then .ok place else .error .invalidArgument
  else .ok (.cached (m.host index))

/-- Where a byte of a source is read from. -/
def byte (pageSize : Nat) (file : Option File) : Bool × Nat → Except Error (Channel × Nat)
  | (isFile, position) =>
    (m.page pageSize file isFile (position / pageSize)).map
      (Place.byte pageSize (position % pageSize))

/-- The bytes of a chunk, span by span. -/
theorem mapM_positions {pageSize : Nat} (hp : 0 < pageSize) (file : Option File) (c : Chunk) :
    c.positions.mapM (m.byte pageSize file) =
      ((spans pageSize c.start c.length).mapM fun span =>
        (m.page pageSize file c.isFile span.index).map (Place.extent pageSize span)).map
          (·.flatMap Extent.bytes) := by
  rw [Chunk.positions, List.mapM_map]
  exact (mapM_spans hp _ pageSize c.start c.length).symm

end SourceMap

/-- As long as `I` holds of the surroundings, they pin all host pages that they are asked for and
take every submission, and they name the same place for a page each time that they are asked.
Nothing that they do while sources are resolved changes that. -/
structure Platform.Serves {ε : Type} (p : Platform ε) (pageSize : Nat) (m : SourceMap)
    (I : ε → Prop) : Prop where
  files : ∀ file, p.Fixed file (m.file file) I
  pinned : ∀ x, I x → ∀ index count, ∃ pages,
    (p.pinHost (index * pageSize) count x).1.pages = .ok pages ∧
      pages.take count = (List.range' index count).map m.host
  afterPin : ∀ x, I x → ∀ index count, I (p.pinHost (index * pageSize) count x).2
  afterUnpin : ∀ x, I x → ∀ base table cause, I (p.unpin base table cause x).2
  afterRelease : ∀ x, I x → ∀ pages, I (p.release pages x)
  takes : Channels.TakeAll p.submit

namespace World

variable {ε : Type} {p : Platform ε} {pageSize : Nat} {m : SourceMap} {I : ε → Prop}
  {w w' : World ε}

/-- The submissions so far, the first one first. -/
def submissions (w : World ε) : List Flight := w.transfers.flatMap Event.submits

/-- Looking at sources submits nothing. -/
theorem submissions_of_reads {a a' : Ambient ε} (h : a.Reads a') :
    a'.transfers.flatMap Event.submits = a.transfers.flatMap Event.submits := by
  obtain ⟨events, hhistory, hreading⟩ := h
  have hnone : (events.filter Event.isTransfer).reverse.flatMap Event.submits = [] := by
    refine List.flatMap_eq_nil_iff.2 fun e he => ?_
    have hreads := hreading e (List.mem_of_mem_filter (List.mem_reverse.1 he))
    cases e with
    | submitted f => cases hreads
    | _ => rfl
  rw [Ambient.transfers, hhistory, List.filter_append, List.reverse_append, List.flatMap_append,
    hnone, List.append_nil, Ambient.transfers]

/-! ## What cleaning up leaves as it is -/

section

variable (h : p.Serves pageSize m I)

include h

theorem outside_unpinRegion (region : Region) (cause : Cause) (hw : I w.ambient.outside) :
    I (w.unpinRegion p region cause).ambient.outside := by
  have hunpin := h.afterUnpin _ hw region.base region.table cause
  unfold unpinRegion Ambient.unpin
  dsimp only
  cases (p.unpin region.base region.table cause w.ambient.outside).1 <;> exact hunpin

theorem outside_resume (s : Sleeper) (hw : I w.ambient.outside) :
    I (w.resume p s).ambient.outside := by
  unfold resume
  cases s.rest with
  | teardown region cause => exact outside_unpinRegion h region cause hw
  | eviction region => exact outside_unpinRegion h region .evicted hw
  | wait => exact hw
  | copy _ => exact hw

theorem outside_wake? (waiter : Option Waiter) (hw : I w.ambient.outside) :
    I (w.wake? p waiter).ambient.outside := by
  cases waiter with
  | none => exact hw
  | some waiter =>
    unfold wake? wake
    exact List.foldlRecOn (motive := fun w : World ε => I w.ambient.outside) _ _ hw
      fun w hw s _ => outside_resume h s hw

theorem outside_put (handle : Handle) (hw : I w.ambient.outside) :
    I (w.put p handle).ambient.outside := by
  unfold put
  rcases w.core.mappings.put? handle with _ | ⟨woken, mappings⟩
  · exact hw
  · exact outside_wake? h woken hw

theorem outside_releaseAll (pins : List PinSet) (hw : I w.ambient.outside) :
    I (w.releaseAll p pins).ambient.outside := by
  unfold releaseAll Ambient.releaseAll
  refine List.foldlRecOn (motive := fun a : Ambient ε => I a.outside) _ _ hw fun a ha s _ => ?_
  unfold Ambient.release
  split
  · exact ha
  · exact h.afterRelease _ ha _

theorem outside_cleanup (id : TaskId) (hw : I w.ambient.outside) :
    I (w.cleanup p id).2.ambient.outside := by
  unfold cleanup
  rcases w.core.tasks.remove? id with _ | ⟨task, tasks⟩
  · exact hw
  · exact outside_wake? h _ (outside_releaseAll h _ (outside_put h _ hw))

theorem outside_cleanupAll (ids : List TaskId) (hw : I w.ambient.outside) :
    I (w.cleanupAll p ids).ambient.outside := by
  unfold cleanupAll
  exact List.foldlRecOn (motive := fun w : World ε => I w.ambient.outside) _ _ hw
    fun w hw id _ => outside_cleanup h id hw

end

/-! ## What sources resolve to -/

/-- What leads from `w` to `w'` submits nothing and does not make `I` fail. -/
structure Keeps (I : ε → Prop) (w w' : World ε) : Prop where
  config : w'.core.config = w.core.config
  outside : I w.ambient.outside → I w'.ambient.outside
  submissions : w'.submissions = w.submissions

namespace Keeps

variable {w'' : World ε}

theorem refl (w : World ε) : Keeps I w w := ⟨rfl, id, rfl⟩

theorem trans (h : Keeps I w w') (h' : Keeps I w' w'') : Keeps I w w'' :=
  ⟨h'.config.trans h.config, h'.outside ∘ h.outside, h'.submissions.trans h.submissions⟩

theorem of_quiet (h : Quiet w w') (hw : I w.ambient.outside → I w'.ambient.outside) :
    Keeps I w w' :=
  ⟨h.config, hw, congrArg (·.flatMap Event.submits) h.transfers⟩

theorem of_reads {a : Ambient ε} (h : w.ambient.Reads a)
    (hw : I w.ambient.outside → I a.outside) : Keeps I w { w with ambient := a } :=
  ⟨rfl, hw, submissions_of_reads h⟩

end Keeps

section

variable (h : p.Serves pageSize m I)

include h

theorem pinHost_serves (index count : Nat) (hw : I w.ambient.outside) :
    ∃ pages, (w.pinHost p (index * pageSize) count).1 = .ok pages ∧
      pages.take count = (List.range' index count).map m.host ∧
      Keeps I w (w.pinHost p (index * pageSize) count).2 := by
  obtain ⟨pages, hpages, htake⟩ := h.pinned _ hw index count
  have hpin := h.afterPin _ hw index count
  unfold pinHost
  dsimp only
  rw [hpages]
  refine ⟨pages, rfl, htake, ?_⟩
  have hquiet := (Quiet.setOutside w (p.pinHost (index * pageSize) count w.ambient.outside).2).trans
    (.cleanupAll p (p.pinHost (index * pageSize) count w.ambient.outside).1.cleanups _)
  have hkeeps : Keeps I w _ := .of_quiet hquiet fun _ => outside_cleanupAll h _ hpin
  exact hkeeps.trans (.of_reads (.note _ rfl) id)

/-- The host pages of a chunk. -/
theorem resolveHost_serves (hps : Word.isPowerOfTwo pageSize) {address length : Nat}
    (hc : (Chunk.host address length).IsRange) (file : Option File) (hw : I w.ambient.outside) :
    ((w.resolveHost p pageSize address length).1).map (·.1.flatMap Extent.bytes) =
        (Chunk.host address length).positions.mapM (m.byte pageSize file) ∧
      Keeps I w (w.resolveHost p pageSize address length).2 := by
  obtain ⟨hne, hbound⟩ := hc
  simp only [Chunk.start, Chunk.length] at hne hbound
  have hp := Word.isPowerOfTwo_pos hps
  have haligned : address - address % pageSize = address / pageSize * pageSize := by
    have hd := Nat.div_add_mod' address pageSize
    omega
  rw [m.mapM_positions hp]
  unfold resolveHost
  rw [Word.add?_eq_some_iff.2 ⟨rfl, hbound⟩]
  dsimp only [Chunk.start, Chunk.length]
  rw [Word.alignDown_eq (by omega) hps, pageCount_eq_ceilDiv hp (Nat.pos_of_ne_zero hne),
    spans_eq_map hp address (Nat.pos_of_ne_zero hne), haligned]
  generalize pageCount pageSize address length = count
  obtain ⟨pages, hanswer, htake, hkeeps⟩ := pinHost_serves h (address / pageSize) count hw
  generalize w.pinHost p (address / pageSize * pageSize) count = answer at hanswer hkeeps
  obtain ⟨answer, w₁⟩ := answer
  obtain rfl : answer = .ok pages := hanswer
  have hcount : count ≤ pages.length := by
    have hlength := congrArg List.length htake
    rw [List.length_take, List.length_map, List.length_range'] at hlength
    omega
  dsimp only
  rw [if_neg (Nat.not_lt.2 hcount)]
  refine ⟨?_, hkeeps⟩
  have hpages : (((List.range' (address / pageSize) count).map
      (Span.onPage pageSize address length)).mapM fun span =>
        (m.page pageSize file false span.index).map (Place.extent pageSize span)) =
      .ok (hostExtents ((List.range' (address / pageSize) count).map
        (Span.onPage pageSize address length)) (pages.take count)) := by
    rw [htake, hostExtents, List.zipWith_map, List.zipWith_self, List.mapM_map]
    exact List.mapM_pure
  rw [show (Chunk.host address length).isFile = false from rfl, hpages]
  rfl

/-- The file pages of a chunk. -/
theorem resolveFile_serves (hps : Word.isPowerOfTwo pageSize) {offset length : Nat}
    (hc : (Chunk.file offset length).IsRange) {file : Option File}
    (hfile : ∀ f, file = some f → f.blockSize = pageSize) {a : Ambient ε} (ha : I a.outside) :
    ((a.resolveFile p pageSize file offset length).1).map (·.1.flatMap Extent.bytes) =
        (Chunk.file offset length).positions.mapM (m.byte pageSize file) ∧
      I (a.resolveFile p pageSize file offset length).2.outside := by
  obtain ⟨hne, hbound⟩ := hc
  simp only [Chunk.start, Chunk.length] at hne hbound
  have hp := Word.isPowerOfTwo_pos hps
  rw [m.mapM_positions hp]
  dsimp only [Chunk.start, Chunk.length]
  rw [show (Chunk.file offset length).isFile = true from rfl]
  cases file with
  | none =>
    refine ⟨?_, ha⟩
    rw [spans_of_pos offset hp (Nat.pos_of_ne_zero hne)]
    rfl
  | some file =>
    obtain ⟨hanswer, ha₁⟩ := Ambient.resolveFile_fixed (h.files file) hp hbound ha
    refine ⟨?_, ha₁⟩
    have hsource : ∀ span ∈ spans pageSize offset length,
        ((m.file file).source pageSize span).map Prod.fst =
          (m.page pageSize (some file) true span.index).map (Place.extent pageSize span) := by
      intro span hspan
      obtain ⟨hin, hlt⟩ := spans_within hp span hspan
      unfold FileMap.source SourceMap.page
      dsimp only
      rw [if_pos rfl]
      cases (m.file file).place span.index with
      | error e => rfl
      | ok place =>
        have hiff := Place.addressable_iff hps hin (by omega) place
        dsimp only
        by_cases haddress : place.Addressable pageSize 0
        · rw [if_pos haddress, if_pos (hiff.2 haddress)]
          rfl
        · rw [if_neg haddress, if_neg fun hn => haddress (hiff.1 hn)]
          rfl
    rw [hanswer, hfile file rfl, ← mapM_congr_left hsource, ← map_mapM]
    cases (spans pageSize offset length).mapM ((m.file file).source pageSize) <;> rfl

/-- What a chunk reads. -/
theorem resolveChunk_serves (hps : Word.isPowerOfTwo pageSize) {c : Chunk} (hc : c.IsRange)
    {file : Option File} (hfile : ∀ f, file = some f → f.blockSize = pageSize)
    (hpage : w.core.config.hostPageSize = pageSize) (hw : I w.ambient.outside) :
    ((w.resolveChunk p file c).1).map (·.1.flatMap Extent.bytes) =
        c.positions.mapM (m.byte pageSize file) ∧
      Keeps I w (w.resolveChunk p file c).2 := by
  unfold resolveChunk
  rw [hpage]
  cases c with
  | host address length => exact resolveHost_serves h hps hc file hw
  | file offset length =>
    obtain ⟨hbytes, hw'⟩ := resolveFile_serves h hps hc hfile hw
    exact ⟨hbytes, .of_reads (.resolveFile p _ file offset length _) fun _ => hw'⟩

/-- What chunks read hinges on their bytes, not on where one chunk ends and the next one begins. -/
theorem resolve_serves (hps : Word.isPowerOfTwo pageSize) {chunks : List Chunk}
    (hc : ∀ c ∈ chunks, c.IsRange) {file : Option File}
    (hfile : ∀ f, file = some f → f.blockSize = pageSize)
    (hpage : w.core.config.hostPageSize = pageSize) (hw : I w.ambient.outside) :
    ((w.resolve p file chunks).1.mapError Unresolved.error).map (·.1.flatMap Extent.bytes) =
        (chunks.flatMap Chunk.positions).mapM (m.byte pageSize file) ∧
      Keeps I w (w.resolve p file chunks).2 := by
  induction chunks generalizing w with
  | nil => exact ⟨rfl, .refl w⟩
  | cons c rest ih =>
    obtain ⟨hfirst, hkeeps⟩ :=
      resolveChunk_serves h hps (hc c (List.mem_cons_self ..)) hfile hpage hw
    rw [List.flatMap_cons, List.mapM_append, ← hfirst, resolve]
    generalize w.resolveChunk p file c = answer at hkeeps ⊢
    obtain ⟨e | ⟨extents, pins⟩, w₁⟩ := answer
    · exact ⟨rfl, hkeeps⟩
    · obtain ⟨hrest, hkeeps'⟩ := ih (fun c' hc' => hc c' (List.mem_cons_of_mem _ hc'))
        (hkeeps.config ▸ hpage) (hkeeps.outside hw)
      rw [← hrest]
      dsimp only
      generalize w₁.resolve p file rest = answer at hkeeps' ⊢
      obtain ⟨stop | ⟨more, others⟩, w₂⟩ := answer
      · exact ⟨rfl, hkeeps.trans hkeeps'⟩
      · exact ⟨congrArg Except.ok List.flatMap_append, hkeeps.trans hkeeps'⟩

end

/-! ## Requests -/

/-- A request that is admitted is admitted just as well with its chunks cut. -/
theorem prepare_cut {order : CopyOrder} {others : List Chunk} {task : Task} {w₁ : World ε}
    (hcut : Chunk.Cut order.chunks others) (h : w.prepare p order = (.ok task, w₁)) :
    w.prepare p { order with chunks := others } = (.ok { task with chunks := others }, w₁) := by
  have hneeds := (hcut.keeps (prepare_ok p h).2.ranges).2.2.2.1
  have hfile (w : World ε) :
      w.sourceFile p { order with chunks := others } = w.sourceFile p order := by
    unfold sourceFile
    dsimp only
    rw [hneeds]
  obtain ⟨htotal, hacquire, hwindow, hopened⟩ := prepare_eq_ok_iff.1 h
  exact prepare_eq_ok_iff.2
    (.mk (hcut.totalLength htotal) hacquire hwindow ((hfile _).trans hopened))

/-- A file that may be copied from has blocks as large as pages. -/
theorem sourceFile_blockSize {order : CopyOrder} {file : Option File}
    (h : w.sourceFile p order = (.ok file, w')) :
    ∀ f, file = some f → f.blockSize = w.core.config.hostPageSize := by
  unfold sourceFile liftAmbient at h
  split at h
  · cases hdescriptor : order.descriptor with
    | none =>
      rw [hdescriptor] at h
      cases h
    | some descriptor =>
      rw [hdescriptor] at h
      have hsound := openChecked_sound (p := p) w descriptor
      dsimp only at h
      generalize w.ambient.openChecked p w.core.config.hostPageSize descriptor = answer at h hsound
      obtain ⟨e | found, a⟩ := answer
      · cases h
      · cases h
        obtain ⟨-, kind, heligible⟩ := hsound
        rintro f ⟨⟩
        exact heligible.blockSize
  · cases h
    exact nofun

theorem prepare_blockSize {order : CopyOrder} {task : Task} {w₁ : World ε}
    (h : w.prepare p order = (.ok task, w₁)) :
    ∀ f, task.holds.file = some f → f.blockSize = w.core.config.hostPageSize := by
  obtain ⟨-, hacquire, -, hfile⟩ := prepare_eq_ok_iff.1 h
  obtain ⟨before, mappings, -, -, rfl⟩ := acquire_ok hacquire
  exact fun f hf => sourceFile_blockSize hfile f hf

/-- What a request hands to the channels hinges on the bytes of its chunks. If one of them cannot
be read, that is the error of the request. Otherwise the runs of a plan for them are submitted. -/
theorem copyAsync_serves (h : p.Serves pageSize m I) (hps : Word.isPowerOfTwo pageSize)
    (hpage : w.core.config.hostPageSize = pageSize)
    (hcovered : ∀ r, w.core.mappings.Lists r → r.Covered) {order : CopyOrder} {task : Task}
    {w₁ : World ε} (hw : I w.ambient.outside) (hprepare : w.prepare p order = (.ok task, w₁)) :
    match (order.chunks.flatMap Chunk.positions).mapM (m.byte pageSize task.holds.file) with
    | .error e =>
      (w.copyAsync p order).1 = .error e ∧ (w.copyAsync p order).2.submissions = w.submissions
    | .ok bytes =>
      ∃ extents runs, extents.flatMap Extent.bytes = bytes ∧
        planRuns task.holds.region.layout task.start extents = .ok runs ∧
        (w.copyAsync p order).1 = .ok task.id ∧
        (w.copyAsync p order).2.submissions =
          w.submissions ++ Run.flights task.id runs w.core.flights.next := by
  subst hpage
  obtain ⟨hquiet, hprepared⟩ := prepare_ok p hprepare
  have houtside := prepare_outside p hprepare
  have hbefore : (w₁.enrolled task).submissions = w.submissions :=
    congrArg (·.flatMap Event.submits) hquiet.transfers
  obtain ⟨hbytes, hkeeps⟩ := resolve_serves (w := w₁.enrolled task) h hps
    (hprepared.chunks ▸ hprepared.ranges) (prepare_blockSize hprepare)
    (congrArg Config.hostPageSize hquiet.config) (houtside ▸ hw)
  rw [← hprepared.chunks, ← hbytes]
  rcases hresolve : (w₁.enrolled task).resolve p task.holds.file task.chunks with
    ⟨stop | ⟨extents, pins⟩, w₂⟩ <;> rw [hresolve] at hkeeps <;>
    dsimp only [Except.mapError, Except.map]
  · have hcleanup := ((Quiet.log w₂ (.unresolved task.id stop.error)).trans
      (.releaseAll p stop.pins _)).trans (.cleanup p task.id _)
    rw [copyAsync_of_prepare hprepare, launch_of_unresolved (find?_enrolled task w₁) hresolve]
    exact ⟨rfl, (congrArg (·.flatMap Event.submits) hcleanup.transfers).trans
      (hkeeps.submissions.trans hbefore)⟩
  · obtain ⟨runs, hplan⟩ := planRuns_of_resolve hps hcovered hprepare hresolve
    obtain ⟨hanswer, htransfers⟩ := copyAsync_takeAll h.takes hprepare hresolve hplan
    refine ⟨extents, runs, rfl, hplan, hanswer, ?_⟩
    have hflights (flights : List Flight) :
        (flights.map Event.submitted).flatMap Event.submits = flights := by
      rw [List.flatMap_map]
      exact List.flatMap_singleton' flights
    rw [← hbefore, ← hkeeps.submissions]
    refine (congrArg (·.flatMap Event.submits) htransfers).trans ?_
    rw [List.flatMap_append, hflights]
    rfl

end World

/-- **It makes no difference how a request is cut into chunks.** After any run, let the surroundings
pin all host pages, take every submission, and name the same place for a page each time that they
are asked. Take a request that is admitted, and cut its chunks anywhere into pieces, none of them
empty.

* The request with the pieces is admitted as well, and its task differs in the chunks only: the
  copy starts at the same position.
* Both requests have the same answer, and the submissions are identical.
* If there is a place for every byte of the chunks, the requests succeed. -/
theorem Reach.cut_submissions {ε : Type} {p : Platform ε} {s : System ε} {m : SourceMap}
    {I : ε → Prop} {order : CopyOrder} {task : Task} {w₁ : World ε} {others : List Chunk}
    (h : Reach p (fun _ => True) s)
    (hserves : p.Serves s.world.core.config.hostPageSize m I) (hI : I s.world.ambient.outside)
    (hprepare : s.world.prepare p order = (.ok task, w₁))
    (hcut : Chunk.Cut order.chunks others) :
    let cut : CopyOrder := { order with chunks := others }
    s.world.prepare p cut = (.ok { task with chunks := others }, w₁) ∧
      (s.world.copyAsync p cut).1 = (s.world.copyAsync p order).1 ∧
      (s.world.copyAsync p cut).2.submissions = (s.world.copyAsync p order).2.submissions ∧
      ((∀ position ∈ order.chunks.flatMap Chunk.positions, ∃ source,
          m.byte s.world.core.config.hostPageSize task.holds.file position = .ok source) →
        (s.world.copyAsync p order).1 = .ok task.id) := by
  intro cut
  have hps : Word.isPowerOfTwo s.world.core.config.hostPageSize :=
    h.isPowerOfTwo (.inl trivial) fun _ _ _ => trivial
  have hprepare' := World.prepare_cut hcut hprepare
  obtain ⟨-, -, -, -, hpositions⟩ := hcut.keeps (World.prepare_ok p hprepare).2.ranges
  have hwhole := World.copyAsync_serves hserves hps rfl h.covered hI hprepare
  have hpieces := World.copyAsync_serves hserves hps rfl h.covered hI hprepare'
  dsimp only at hpieces
  rw [hpositions] at hpieces
  rcases hbytes : (order.chunks.flatMap Chunk.positions).mapM
    (m.byte s.world.core.config.hostPageSize task.holds.file) with e | bytes <;>
    rw [hbytes] at hwhole hpieces
  · refine ⟨hprepare', hpieces.1.trans hwhole.1.symm, hpieces.2.trans hwhole.2.symm, fun hall => ?_⟩
    have hnone : ∀ position ∈ order.chunks.flatMap Chunk.positions, ∃ source,
        m.byte s.world.core.config.hostPageSize task.holds.file position = .ok source ∧ () = () :=
      fun position hposition => (hall position hposition).imp fun _ hsource => ⟨hsource, rfl⟩
    obtain ⟨sources, hsources, -⟩ := mapM_eq_ok (g := fun _ => ()) (k := fun _ => ()) hnone
    cases hbytes.symm.trans hsources
  · obtain ⟨extents, runs, hextents, hplan, hanswer, hsubmissions⟩ := hwhole
    obtain ⟨extents', runs', hextents', hplan', hanswer', hsubmissions'⟩ := hpieces
    -- The extents may differ, the bytes do not, and so the runs are the same.
    rw [planRuns_congr task.holds.region.pageSize.bytes_pos task.start
      (hextents'.trans hextents.symm), hplan] at hplan'
    obtain rfl : runs = runs' := Except.ok.inj hplan'
    exact ⟨hprepare', hanswer'.trans hanswer.symm, hsubmissions'.trans hsubmissions.symm,
      fun _ => hanswer⟩

/-- The bench serves requests, as long as its host memory and its disk stay as they are. -/
theorem Bench.serves (disk : Disk) :
    (hookless.withChannels later).Serves 0x1000
      ⟨fun index => ⟨⟨Host.dmaOf {} (index * 0x1000)⟩⟩, disk.map⟩
      fun b => b.disk = disk ∧ b.host = {} where
  files file :=
    { cached := by rintro b ⟨rfl, -⟩ index; rfl
      block := by rintro b ⟨rfl, -⟩ index; rfl
      afterCached := fun b hb _ => hb
      afterBlock := fun b hb _ => hb
      afterRelease := fun b hb _ => hb }
  pinned := by
    rintro b ⟨-, hhost⟩ index count
    have hgrant : ((hookless.withChannels later).pinHost (index * 0x1000) count b).1.pages =
        (b.host.pin (index * 0x1000) count).1 := rfl
    rw [hgrant, hhost]
    refine ⟨_, rfl, ?_⟩
    rw [List.range'_eq_map_range, List.map_map]
    refine (List.take_of_length_le (by simp [Host.grant])).trans (List.map_congr_left fun i _ => ?_)
    simp only [Function.comp_apply, Nat.add_mul]
  afterPin := by
    rintro b ⟨hdisk, hhost⟩ index count
    refine ⟨hdisk, ?_⟩
    have hafter : ((hookless.withChannels later).pinHost (index * 0x1000) count b).2.host =
        (b.host.pin (index * 0x1000) count).2 := rfl
    rw [hafter, hhost]
    rfl
  afterUnpin := fun b hb _ _ _ => hb
  afterRelease := fun b hb _ => hb
  takes := fun _ _ _ _ => rfl

/-- A bench with that disk and one region. -/
def Bench.stocked : System Bench :=
  (System.mk (.fresh {} {} { disk := halfCached }) []).perform (hookless.withChannels later)
    (.map ⟨1⟩ ⟨0x10000⟩ 0x10000)

/-- Two chunks, each cut in the middle of its second page. The pieces are joined again. -/
theorem Reach.cut_submissions_midPage :
    let p := Bench.hookless.withChannels Bench.later
    let order : CopyOrder := ⟨⟨1⟩, some 3, 0x1000, [.host 0x5000 0x1800, .file 0x800 0x1000]⟩
    let cut : CopyOrder := { order with
      chunks := [.host 0x5000 0x1100, .host 0x6100 0x700, .file 0x800 0x900, .file 0x1100 0x700] }
    Reach p (fun _ => True) Bench.stocked ∧ Chunk.Cut order.chunks cut.chunks ∧
      (∃ task w₁, Bench.stocked.world.prepare p order = (.ok task, w₁) ∧
        Bench.stocked.world.prepare p cut = (.ok { task with chunks := cut.chunks }, w₁)) ∧
      (Bench.stocked.world.copyAsync p cut).1 = .ok ⟨1⟩ ∧
      (Bench.stocked.world.copyAsync p cut).2.submissions =
        [⟨⟨0⟩, ⟨1⟩, .memory, ⟨0x800000005000, ⟨0x4000001000⟩, 0x1800⟩⟩,
          ⟨⟨1⟩, ⟨1⟩, .storage, ⟨0x1000800, ⟨0x4000002800⟩, 0x800⟩⟩,
          ⟨⟨2⟩, ⟨1⟩, .memory, ⟨0xC00000001000, ⟨0x4000003000⟩, 0x800⟩⟩] := by
  intro p order cut
  have h : Reach p (fun _ => True) Bench.stocked :=
    .call (@start _ _ _ {} {} { disk := Bench.halfCached } _ rfl) _ trivial
  have hhost : Chunk.Pieces (.host 0x5000 0x1800) [.host 0x5000 0x1100, .host 0x6100 0x700] :=
    .cut (by decide) (by decide) (.whole _)
  have hfile : Chunk.Pieces (.file 0x800 0x1000) [.file 0x800 0x900, .file 0x1100 0x700] :=
    .cut (by decide) (by decide) (.whole _)
  have hcut : Chunk.Cut order.chunks cut.chunks := Chunk.Cut.cons hhost (.cons hfile .nil)
  have hok : (Bench.stocked.world.prepare p order).1.isOk := by decide +kernel
  rcases hprepare : Bench.stocked.world.prepare p order with ⟨e | task, w₁⟩ <;>
    rw [hprepare] at hok
  · cases hok
  obtain ⟨hprepare', hanswer, hsubmissions, -⟩ :=
    cut_submissions h (Bench.serves Bench.halfCached) ⟨rfl, rfl⟩ hprepare hcut
  exact ⟨h, hcut, ⟨task, w₁, rfl, hprepare'⟩, hanswer.trans (by decide +kernel),
    hsubmissions.trans (by decide +kernel)⟩

end PeerDma
