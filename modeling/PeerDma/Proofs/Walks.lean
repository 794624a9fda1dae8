import PeerDma.Bench.Basic
import PeerDma.Command
import PeerDma.Ledger

/-!
# Walks over the pages of a file

A probe walks over the pages that hold a byte of a file range, from the first to the last. It looks
each page up, gives back what the look-up has taken, and visits the page; then it goes on, whatever
the answer was.

* `mem_pagesInRange`, `pairwise_pagesInRange`: which pages it walks over, and in which order.
* `Platform.Reports`: what the surroundings answer about a page.
* `Ambient.Probes`, `Ambient.Walks`: the probe of a page, and of pages one after the other.
* `Ambient.probe_walks`: a probe is a walk over exactly these pages.
-/

namespace PeerDma

/-! ## The pages of a range -/

theorem Word.lt_ceilDiv_iff {index length size : Nat} (h : 0 < size) :
    index < ceilDiv length size ↔ index * size < length := by
  rw [ceilDiv, ← Nat.succ_le_iff, Nat.le_div_iff_mul_le h, Nat.succ_mul]
  omega

section

variable {size page offset length : Nat}

/-- No page comes twice, and none before one with a smaller number. -/
theorem pairwise_pagesInRange : (pagesInRange size page offset length).Pairwise (· < ·) := by
  unfold pagesInRange
  dsimp only
  split
  · exact .nil
  · exact List.pairwise_lt_range'

/-- The pages that hold a byte of the range inside the file, also for a range that does not end
within the words. -/
theorem mem_pagesInRange (hp : 0 < page) (hsize : size < Word.bound) (index : Nat) :
    index ∈ pagesInRange size page offset length ↔ ∃ byte, offset ≤ byte ∧ byte < offset + length ∧
      byte < size ∧ index * page ≤ byte ∧ byte < (index + 1) * page := by
  -- Saturation makes no difference, as the file ends within the words.
  have hstop : min (Word.addSat offset length) size = min (offset + length) size := by
    unfold Word.addSat
    omega
  unfold pagesInRange
  rw [hstop]
  dsimp only
  split
  · next hempty =>
    simp only [List.not_mem_nil, false_iff]
    rintro ⟨byte, hfrom, hto, hin, -⟩
    omega
  · next hmore =>
    have hfirst : offset / page ≤ index ↔ offset < (index + 1) * page := by
      rw [← Nat.lt_succ_iff, Nat.div_lt_iff_lt_mul hp]
    have hlast : index < Word.ceilDiv (min (offset + length) size) page ↔
        index * page < min (offset + length) size := Word.lt_ceilDiv_iff hp
    rw [List.mem_range'_1]
    constructor
    · rintro ⟨hge, hlt⟩
      have hbegins : index * page < min (offset + length) size := hlast.1 (by omega)
      have hends := hfirst.1 hge
      rw [Nat.succ_mul] at hends ⊢
      exact ⟨max offset (index * page), by omega⟩
    · rintro ⟨byte, hfrom, hto, hin, hbegins, hends⟩
      have hge := hfirst.2 (by omega)
      have hlt := hlast.2 (by omega)
      omega

end

/-! ## Walks -/

/-- The page cache is asked for a page, and the block map if the page is not there. The answer is
reported; a reference that comes with it is given back at once. -/
inductive Platform.Reports {ε : Type} (p : Platform ε) (file : File) (index : Nat) (x : ε) :
    PageLocation → ε → Prop where
  | cached {page : HostPage} {x' : ε} (hit : p.cachedPage file index x = (some page, x')) :
      Reports p file index x (.cached page.dma) (p.release [page] x')
  | block {number : Nat} {x' x'' : ε} (miss : p.cachedPage file index x = (none, x'))
      (found : p.resolveBlock file index x' = (.ok number, x'')) :
      Reports p file index x (.block number) x''
  | unmapped {e : Error} {x' x'' : ε} (miss : p.cachedPage file index x = (none, x'))
      (failed : p.resolveBlock file index x' = (.error e, x'')) :
      Reports p file index x (.unmapped e.errno) x''

namespace Ambient

variable {ε : Type} (p : Platform ε) (visit : PageProbe → Ambient ε → Ambient ε) (file : File)

/-- The probe of a page reports what the surroundings answer, and owes them no more than before. -/
structure Probes (a : Ambient ε) (probe : PageProbe) (a' : Ambient ε) : Prop where
  found : a.probePage p file probe.index = (probe, a')
  reports : p.Reports file probe.index a.outside probe.location a'.outside
  ledger : Ledger.ofHistory a'.history = Ledger.ofHistory a.history

/-- Pages are probed one after the other, and each is visited before the next one is probed. The
list has what the visits get to see. -/
inductive Walks : Ambient ε → List (PageProbe × Ambient ε) → Ambient ε → Prop where
  | done (a : Ambient ε) : Walks a [] a
  | step {a a' a'' : Ambient ε} {probe : PageProbe} {seen : List (PageProbe × Ambient ε)}
      (first : a.Probes p file probe a') (rest : Walks (visit probe a') seen a'') :
      Walks a ((probe, a') :: seen) a''

variable {p visit file}

theorem index_probePage (index : Nat) (a : Ambient ε) :
    (a.probePage p file index).1.index = index := by
  unfold probePage
  rcases a.cachedPage p file index with ⟨_ | page, a₁⟩
  · dsimp only
    rcases a₁.resolveBlock p file index with ⟨e | number, a₂⟩ <;> rfl
  · rfl

theorem reports_probePage (index : Nat) (a : Ambient ε) :
    p.Reports file index a.outside (a.probePage p file index).1.location
      (a.probePage p file index).2.outside := by
  unfold probePage cachedPage
  rcases hcached : p.cachedPage file index a.outside with ⟨_ | page, x⟩
  · dsimp only
    unfold resolveBlock
    rcases hblock : p.resolveBlock file index x with ⟨e | number, x'⟩
    · exact .unmapped hcached hblock
    · exact .block hcached hblock
  · exact .cached hcached

theorem ledger_probePage (index : Nat) (a : Ambient ε) :
    Ledger.ofHistory (a.probePage p file index).2.history = Ledger.ofHistory a.history := by
  unfold probePage cachedPage
  rcases p.cachedPage file index a.outside with ⟨_ | page, x⟩
  · dsimp only
    unfold resolveBlock
    rcases p.resolveBlock file index x with ⟨e | number, x'⟩ <;> rfl
  · -- One reference comes and goes.
    simp [release, PinSet.isEmpty, note, Ledger.ofHistory, Ledger.record]

theorem probes_probePage (index : Nat) (a : Ambient ε) :
    a.Probes p file (a.probePage p file index).1 (a.probePage p file index).2 where
  found := by rw [index_probePage]
  reports := by
    rw [index_probePage]
    exact reports_probePage index a
  ledger := ledger_probePage index a

theorem walks_probePages (pages : List Nat) (a : Ambient ε) :
    ∃ seen, Walks p visit file a seen (a.probePages p visit file pages).2 ∧
      (a.probePages p visit file pages).1 = seen.map Prod.fst ∧
      seen.map (·.1.index) = pages := by
  induction pages generalizing a with
  | nil => exact ⟨[], .done a, rfl, rfl⟩
  | cons index rest ih =>
    obtain ⟨seen, hwalks, hprobes, hpages⟩ :=
      ih (visit (a.probePage p file index).1 (a.probePage p file index).2)
    refine ⟨a.probePage p file index :: seen, .step (probes_probePage index a) hwalks, ?_, ?_⟩
    · rw [List.map_cons, ← hprobes]
      rfl
    · rw [List.map_cons, hpages, index_probePage]

/-- As long as the visits owe nothing either, nothing is owed on the way. -/
theorem Walks.ledger {a a' : Ambient ε} {seen : List (PageProbe × Ambient ε)}
    (h : Walks p visit file a seen a')
    (hvisit : ∀ probe b, Ledger.ofHistory (visit probe b).history = Ledger.ofHistory b.history) :
    (∀ s ∈ seen, Ledger.ofHistory s.2.history = Ledger.ofHistory a.history) ∧
      Ledger.ofHistory a'.history = Ledger.ofHistory a.history := by
  induction h with
  | done a => exact ⟨nofun, rfl⟩
  | @step a a' _ probe _ first _ ih =>
    obtain ⟨hseen, hend⟩ := ih
    have hbefore := (hvisit probe a').trans first.ledger
    refine ⟨List.forall_mem_cons.2 ⟨first.ledger, fun s hs => ?_⟩, hend.trans hbefore⟩
    exact (hseen s hs).trans hbefore

/-- **A probe walks over the pages of its range.** Whatever the surroundings answer, a probe of a
range visits the pages that hold a byte of the range inside the file, and no others; it visits each
once, in order. Every visit is told what the page cache and the block map answer about its page.
What is owed to the surroundings, page references included, is at every visit what the visit before
has left; so if visits leave it as it is, it never changes. -/
theorem probe_walks {pageSize : Nat} (hp : 0 < pageSize) (hsize : file.size < Word.bound)
    (offset length : Nat) (a : Ambient ε) :
    let result := a.probe p visit pageSize file offset length
    ∃ seen, Walks p visit file a seen result.2 ∧ result.1 = seen.map Prod.fst ∧
      (result.1.map PageProbe.index).Pairwise (· < ·) ∧
      (∀ index, index ∈ result.1.map PageProbe.index ↔
        ∃ byte, offset ≤ byte ∧ byte < offset + length ∧ byte < file.size ∧
          index * pageSize ≤ byte ∧ byte < (index + 1) * pageSize) ∧
      ((∀ probe b, Ledger.ofHistory (visit probe b).history = Ledger.ofHistory b.history) →
        (∀ s ∈ seen, Ledger.ofHistory s.2.history = Ledger.ofHistory a.history) ∧
          Ledger.ofHistory result.2.history = Ledger.ofHistory a.history) := by
  intro result
  obtain ⟨seen, hwalks, hprobes, hpages⟩ : ∃ seen, Walks p visit file a seen result.2 ∧
      result.1 = seen.map Prod.fst ∧
      seen.map (·.1.index) = pagesInRange file.size pageSize offset length :=
    walks_probePages _ a
  have hindices : result.1.map PageProbe.index = pagesInRange file.size pageSize offset length := by
    rw [← hpages, hprobes, List.map_map]
    rfl
  rw [hindices]
  exact ⟨seen, hwalks, hprobes, pairwise_pagesInRange, mem_pagesInRange hp hsize, hwalks.ledger⟩

/-- The file ends ten bytes into its fourth page, the range long after the last word. The block of
the third page cannot be found, and the probe goes on behind it. -/
theorem probe_walks_clipped :
    let file : File := { Bench.plainFile .ext4 0x300A with descriptor := 3 }
    let disk : Bench.Disk := { ({} : Bench.Disk).install 3 ⟨file, [1]⟩ with failAt := some 2 }
    let a : Ambient Bench := ⟨{ disk }, []⟩
    let result := a.probe Bench.platform World.logProbe 0x1000 file 0x1FFF (Word.bound - 1)
    let probes : List PageProbe :=
      [⟨1, .cached ⟨0xC00000001000⟩⟩, ⟨2, .unmapped (-5)⟩, ⟨3, .block 0x1003⟩]
    0 < 0x1000 ∧ file.size < Word.bound ∧ ∃ seen : List (PageProbe × Ambient Bench),
      Walks Bench.platform World.logProbe file a seen result.2 ∧ seen.map Prod.fst = probes ∧
        (∀ s ∈ seen, Ledger.ofHistory s.2.history = {}) ∧
          Ledger.ofHistory result.2.history = {} := by
  intro file disk a result probes
  have hprobes : result.1 = probes := by decide +kernel
  have hp : 0 < 0x1000 := by decide
  have hsize : file.size < Word.bound := by decide
  obtain ⟨seen, hwalks, hseen, -, -, hledger⟩ :=
    @probe_walks _ Bench.platform World.logProbe file _ hp hsize 0x1FFF (Word.bound - 1) a
  have hlogs : ∀ probe (b : Ambient Bench),
      Ledger.ofHistory (World.logProbe probe b).history = Ledger.ofHistory b.history :=
    fun _ _ => rfl
  exact ⟨hp, hsize, seen, hwalks, hseen.symm.trans hprobes, hledger hlogs⟩

end Ambient

end PeerDma
