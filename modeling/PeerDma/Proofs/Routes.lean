import PeerDma.Command
import PeerDma.Proofs.Moves

/-!
# Operations are sequences of moves

For each operation on a world, the moves that it consists of. What the operation needs it has in
hand before, and what it takes it has in hand afterwards; the rest of the hand stays.

* `Moves.cleanup`, `Moves.landAll`: the ends of tasks and of submissions.
* `Moves.teardown`, `Moves.evict`, `Moves.map`: the life of regions.
* `Moves.resolve`, `Moves.launch`, `Moves.copyAsync`: requests.
-/

namespace PeerDma

/-- Whether an answer of the surroundings never comes with tasks to clean up. -/
structure Platform.CleansNothing {ε : Type} (p : Platform ε) : Prop where
  pinHost : ∀ address count x, (p.pinHost address count x).1.cleanups = []
  submit : ∀ token channel request x, (p.submit token channel request x).1.cleanups = []

/-- The count that an acquisition answers with is what the table has then. -/
theorem World.find?_acquire {ε : Type} {h : Handle} {use : RegionUse} {w w' : World ε}
    (ha : w.acquire h = (.ok use, w')) : w'.core.mappings.table.find? h = some use := by
  unfold World.acquire Mappings.acquire? at ha
  cases hf : w.core.mappings.table.find? h with
  | none => simp [hf] at ha
  | some before =>
    simp only [hf, Option.map_some, Prod.mk.injEq, Except.ok.injEq] at ha
    obtain ⟨rfl, rfl⟩ := ha
    exact (Sharded.find?_insert ..).trans (if_pos rfl)

theorem Chunk.Fault.isPlain_entry? (f : Chunk.Fault) : f.entry?.all Log.Entry.isPlain := by
  cases f <;> rfl

theorem CopyBlock.Fault.isPlain_entry? {b : CopyBlock} (f : CopyBlock.Fault) :
    (f.entry? b).all Log.Entry.isPlain := by
  cases f with
  | count => rfl
  | chunk fault => exact fault.isPlain_entry?

theorem PinSet.coe_push (pins : PinSet) (page : HostPage) :
    (↑(pins.push page).pages : Multiset HostPage) = page ::ₘ ↑pins.pages :=
  Multiset.coe_eq_coe.2 (List.perm_append_singleton page pins.pages)

namespace Moves

open Relation.ReflTransGen

variable {ε : Type} {p : Platform ε} {stray : Prop}

/-! ## Parked calls -/

/-- One after another. -/
theorem foldl {α : Type} {f : World ε → α → World ε} {k : Hand}
    (hf : ∀ w x, Moves p stray ⟨w, k⟩ ⟨f w x, k⟩) (l : List α) (w : World ε) :
    Moves p stray ⟨w, k⟩ ⟨l.foldl f w, k⟩ := by
  induction l generalizing w with
  | nil => exact refl
  | cons x rest ih => exact (hf w x).trans (ih _)

theorem log (w : World ε) (k : Hand) (e : Log.Entry) (h : e.isPlain) :
    Moves p stray ⟨w, k⟩ ⟨w.log e, k⟩ :=
  single (.log w k e h)

theorem log? (w : World ε) (k : Hand) (e : Option Log.Entry) (h : e.all Log.Entry.isPlain) :
    Moves p stray ⟨w, k⟩ ⟨w.log? e, k⟩ := by
  cases e with
  | none => exact refl
  | some e => exact log w k e h

theorem resume (l : List Sleeper) (w : World ε) (k : Hand) :
    Moves p stray ⟨w, { k with roused := l ++ k.roused }⟩
      ⟨l.foldl (fun w s => w.resume p s) w, k⟩ := by
  induction l generalizing w with
  | nil => exact refl
  | cons s rest ih => exact head (.resume w { k with roused := rest ++ k.roused } s) (ih _)

theorem wake? (waiter : Option Waiter) (w : World ε) (k : Hand) :
    Moves p stray ⟨w, { k with wakes := waiter.toList ++ k.wakes }⟩ ⟨w.wake? p waiter, k⟩ := by
  cases waiter with
  | none => exact refl
  | some waiter => exact head (.wake w k waiter) (resume _ _ k)

theorem put (h : Handle) (w : World ε) (k : Hand) :
    Moves p stray ⟨w, { k with refs := h ::ₘ k.refs }⟩ ⟨w.put p h, k⟩ := by
  unfold World.put
  rcases hp : w.core.mappings.put? h with _ | ⟨_ | waiter, m⟩
  · exact single (.underflow w k h hp)
  · exact single (.put w k h m hp)
  · exact head (.putLast w k h waiter m hp) (resume _ _ k)

/-! ## The end of a task -/

theorem releaseAll (pins : List PinSet) (w : World ε) (k : Hand) :
    Moves p stray ⟨w, { k with pages := ↑(pins.flatMap PinSet.pages) + k.pages }⟩
      ⟨w.releaseAll p pins, k⟩ := by
  induction pins generalizing w with
  | nil =>
    rw [List.flatMap_nil, Multiset.coe_nil, Multiset.zero_add]
    exact refl
  | cons s rest ih =>
    rw [List.flatMap_cons, ← Multiset.coe_add, Multiset.add_assoc]
    exact head (.release w { k with pages := ↑(rest.flatMap PinSet.pages) + k.pages } s) (ih _)

theorem cleanup (id : TaskId) (w : World ε) (k : Hand) :
    Moves p stray ⟨w, { k with due := id :: k.due }⟩ ⟨(w.cleanup p id).2, k⟩ := by
  unfold World.cleanup
  rcases hr : w.core.tasks.remove? id with _ | ⟨task, tasks⟩
  · exact single (.unknown w k id hr)
  · refine (head (.remove w k id task tasks hr) (put _ _ { k with
      pages := ↑task.pages + k.pages
      wakes := task.slot.occupant.toList ++ k.wakes
      closing := id :: k.closing })).trans ?_
    refine (releaseAll task.holds.pins _ { k with
      wakes := task.slot.occupant.toList ++ k.wakes
      closing := id :: k.closing }).trans ?_
    exact (wake? task.slot.occupant _ { k with closing := id :: k.closing }).tail
      (.completed _ k id)

/-- The surroundings clean tasks up. -/
theorem cleanupAll {ids : List TaskId} (hs : stray ∨ ids = []) (w : World ε) (k : Hand) :
    Moves p stray ⟨w, k⟩ ⟨w.cleanupAll p ids, k⟩ := by
  rcases hs with hs | rfl
  · exact foldl (fun w id => head (.stray w k id hs) (cleanup id w k)) ids w
  · exact refl

/-- The cleanup after the end of a submission or launch, if it is the last one. -/
theorem cleanupDue (t : Tasks) (id : TaskId) (w : World ε) (k : Hand) :
    Moves p stray ⟨w, { k with due := t.dueAfter id ++ k.due }⟩
      ⟨if (t.finish id).1 then (w.cleanup p id).2 else w, k⟩ := by
  unfold Tasks.dueAfter
  split
  · exact cleanup id w k
  · exact refl

theorem land (token : Token) (w : World ε) (k : Hand) :
    Moves p stray ⟨w, { k with offered := none }⟩ ⟨w.land p token, { k with offered := none }⟩ := by
  unfold World.land
  rcases hl : w.core.flights.land? token with _ | ⟨f, flights⟩
  · exact refl
  · exact head (.land w k token f flights hl)
      (cleanupDue w.core.tasks f.task _ { k with offered := none })

theorem landAll (tokens : List Token) (w : World ε) (k : Hand) :
    Moves p stray ⟨w, { k with offered := none }⟩
      ⟨w.landAll p tokens, { k with offered := none }⟩ :=
  foldl (fun w token => land token w k) tokens w

/-! ## Regions -/

/-- Taking a region out of the table and unpinning it, at once or after its last user. -/
theorem detach {h : Handle} {now : Region → World ε → World ε} {later : Region → Rest}
    {cause : Cause} (hnow : ∀ r w k, Moves p stray ⟨w.unpinRegion p r cause, k⟩ ⟨now r w, k⟩)
    (hlater : ∀ r, (later r).region? = some r) (w : World ε) (k : Hand) :
    Moves p stray ⟨w, k⟩ ⟨(w.detach h now later).2, k⟩ := by
  unfold World.detach
  rcases hd : w.core.mappings.detach? h with _ | ⟨use, m⟩
  · exact refl
  · dsimp only
    split
    · next hu => exact head (.detach w k h use m cause hd hu) (hnow use.region (w.setMappings m) k)
    · next hu => exact head (.park w k h use m _ hd hu (hlater use.region)) (log _ k _ rfl)

theorem teardown (h : Handle) (cause : Cause) (w : World ε) (k : Hand) :
    Moves p stray ⟨w, k⟩ ⟨(w.teardown p h cause).2, k⟩ := by
  have hdetach : Moves p stray ⟨w, k⟩
      ⟨(w.detach h (fun r w => w.unpinRegion p r cause) (.teardown · cause)).2, k⟩ :=
    detach (fun _ _ _ => refl) (fun _ => rfl) w k
  unfold World.teardown
  generalize w.detach h (fun r w => w.unpinRegion p r cause) (.teardown · cause) = answer
    at hdetach ⊢
  obtain ⟨(e | _) | waiter, w'⟩ := answer
  · exact hdetach.trans (log _ k _ rfl)
  · exact hdetach
  · exact hdetach

theorem unpinEvicted (r : Region) (w : World ε) (k : Hand) :
    Moves p stray ⟨w.unpinRegion p r .evicted, k⟩ ⟨w.unpinEvicted p r, k⟩ :=
  head (.countEvicted _ k) (log _ k _ rfl)

theorem evict (h : Handle) (w : World ε) (k : Hand) :
    Moves p stray ⟨w, k⟩ ⟨(w.evict p h).2, k⟩ := by
  have hdetach : Moves p stray ⟨w, k⟩
      ⟨(w.detach h (fun r w => w.unpinEvicted p r) .eviction).2, k⟩ :=
    detach unpinEvicted (fun _ => rfl) w k
  unfold World.evict
  cases hr : w.core.mappings.revoke? h with
  | some m => exact single (.revoke w k h m hr)
  | none =>
    dsimp only
    generalize w.detach h (fun r w => w.unpinEvicted p r) .eviction = answer at hdetach ⊢
    obtain ⟨(e | _) | waiter, w'⟩ := answer
    · exact hdetach.trans (log _ k _ rfl)
    · exact hdetach
    · exact hdetach

theorem rollBack (h : Handle) (base : GpuAddr) (table : PageTable) (cause : Cause) (w : World ε)
    (k : Hand) :
    Moves p stray ⟨w, { k with map := some ⟨h, some (base, table)⟩ }⟩
      ⟨w.rollBack p h base table cause, { k with map := none }⟩ := by
  have hunpin : Moves p stray ⟨w, { k with map := some ⟨h, some (base, table)⟩ }⟩
      ⟨{ w with ambient := (w.ambient.unpin p h base table cause).2 }, { k with map := none }⟩ :=
    head (.outside w _ (p.unpin base table cause w.ambient.outside).2)
      (single (.rollBack (w.setOutside _) k h base table cause))
  unfold World.rollBack
  dsimp only
  cases (w.ambient.unpin p h base table cause).1 with
  | ok => exact hunpin
  | error e => exact hunpin.trans (log _ _ _ rfl)

theorem logRegion (r : Region) (w : World ε) (k : Hand) :
    Moves p stray ⟨w, k⟩ ⟨w.logRegion r, k⟩ :=
  (log w k _ rfl).trans (foldl (fun w _ => log w k _ rfl) _ _)

theorem enter (r : Region) (w : World ε) (k : Hand) :
    Moves p stray ⟨w, { k with map := some ⟨r.handle, some (r.base, r.table)⟩ }⟩
      ⟨(w.enter p r).2, { k with map := none }⟩ := by
  unfold World.enter World.finishMap
  refine (logRegion r w _).trans (head (.finishMap _ _ r.handle) ?_)
  dsimp only
  rcases ((w.logRegion r).core.mappings.finish r.handle).1 with _ | _
  · exact single (.register _ k r)
  · exact (log _ _ _ rfl).trans ((rollBack _ _ _ _ _ k).tail (.countEvicted _ _))

theorem refuseTable (h : Handle) (base : GpuAddr) (table : PageTable) (e : Log.Entry)
    (he : e.isPlain) (w : World ε) (k : Hand) :
    Moves p stray ⟨w, { k with map := some ⟨h, some (base, table)⟩ }⟩
      ⟨(w.refuseTable p h base table e).2, { k with map := none }⟩ :=
  ((log w _ e he).tail (.finishMap _ _ h)).trans (rollBack h base table .unmap _ k)

/-- A pin that fails: there is nothing to hand back. -/
theorem pinMap_error {h : Handle} {base : GpuAddr} {length : Nat} {e : Error} {w w' : World ε}
    (hp : w.pinMap p h base length = (.error e, w')) (k : Hand) :
    Moves p stray ⟨w, k⟩ ⟨w', k⟩ := by
  unfold World.pinMap Ambient.pin at hp
  dsimp only at hp
  rcases hg : (p.pin h base length w.ambient.outside).1 with e | grant <;> rw [hg] at hp
  · obtain ⟨-, rfl⟩ := Prod.mk.inj hp
    exact single (.outside w k _)
  · simp at hp

theorem pinMap_ok {h : Handle} {base : GpuAddr} {length : Nat} {table : PageTable} {w w' : World ε}
    (hp : w.pinMap p h base length = (.ok table, w')) (k : Hand) :
    Moves p stray ⟨w, { k with map := some { handle := h } }⟩
      ⟨w', { k with map := some ⟨h, some (base, table)⟩ }⟩ := by
  unfold World.pinMap Ambient.pin at hp
  dsimp only at hp
  rcases hg : (p.pin h base length w.ambient.outside).1 with e | grant <;> rw [hg] at hp
  · simp at hp
  · obtain ⟨ht, rfl⟩ := Prod.mk.inj hp
    obtain rfl := Except.ok.inj ht
    refine head (.outside w _ (p.pin h base length w.ambient.outside).2)
      (head (.pinned (w.setOutside _) k h base grant.table) ?_)
    split
    · exact evict h _ _
    · exact refl

theorem map (owner : Pid) (address : GpuAddr) (length : Nat) (w : World ε) (k : Hand) :
    Moves p stray ⟨w, { k with map := none }⟩
      ⟨(w.map p owner address length).2, { k with map := none }⟩ := by
  unfold World.map
  split
  · exact log _ _ _ rfl
  dsimp only
  generalize address.alignDown w.core.mappings.bound = base
  generalize address.offsetWithin w.core.mappings.bound = offset
  refine head (.beginMap w k) ?_
  generalize w.core.mappings.begin.1 = h
  generalize w.setMappings w.core.mappings.begin.2 = w
  rcases hp : w.pinMap p h base (offset + length) with ⟨e | table, w'⟩
  · refine (pinMap_error hp _).trans ?_
    exact head (.finishMap w' _ h) (head (.giveUp _ k h) (log _ _ _ rfl))
  · refine (pinMap_ok hp k).trans ?_
    dsimp only
    split
    · exact refuseTable _ _ _ _ rfl _ k
    · split
      · exact refuseTable _ _ _ _ rfl _ k
      · exact enter ⟨h, owner, base, offset, length, _, table⟩ w' k

/-! ## References -/

theorem acquire {h : Handle} {use : RegionUse} {w w' : World ε}
    (ha : w.acquire h = (.ok use, w')) (k : Hand) :
    Moves p stray ⟨w, k⟩ ⟨w', { k with refs := h ::ₘ k.refs }⟩ := by
  unfold World.acquire at ha
  rcases hm : w.core.mappings.acquire? h with _ | ⟨found, m⟩ <;> rw [hm] at ha
  · simp at ha
  · obtain ⟨-, rfl⟩ := Prod.mk.inj ha
    exact single (.acquire w k h found m hm)

theorem acquire_error {h : Handle} {e : Error} {w w' : World ε}
    (ha : w.acquire h = (.error e, w')) (k : Hand) : Moves p stray ⟨w, k⟩ ⟨w', k⟩ := by
  unfold World.acquire at ha
  rcases hm : w.core.mappings.acquire? h with _ | ⟨found, m⟩ <;> rw [hm] at ha
  · obtain ⟨-, rfl⟩ := Prod.mk.inj ha
    exact log w k _ rfl
  · simp at ha

theorem info (h : Handle) (capacity : Nat) (w : World ε) (k : Hand) :
    Moves p stray ⟨w, k⟩ ⟨(w.info p h capacity).2, k⟩ := by
  unfold World.info
  rcases ha : w.acquire h with ⟨e | use, w'⟩
  · exact acquire_error ha k
  · exact (acquire ha k).trans (put h w' k)

/-! ## Sources -/

/-- The page references that come with an answer. -/
def held {α β : Type} (pages : β → List HostPage) : Except Error (α × β) → Multiset HostPage
  | .ok (_, pins) => ↑(pages pins)
  | .error _ => 0

/-- No page references more. -/
theorem heldNothing {m : Moment ε} {w : World ε} {k : Hand} (h : Moves p stray m ⟨w, k⟩) :
    Moves p stray m ⟨w, { k with pages := 0 + k.pages }⟩ := by
  rw [Multiset.zero_add]
  exact h

theorem cachedPage (file : File) (index : Nat) (core : Core) (a : Ambient ε) (k : Hand) :
    Moves p stray ⟨⟨core, a⟩, k⟩ ⟨⟨core, (a.cachedPage p file index).2⟩,
      { k with pages := ↑(a.cachedPage p file index).1.toList + k.pages }⟩ := by
  unfold Ambient.cachedPage
  refine head (.outside ⟨core, a⟩ k (p.cachedPage file index a.outside).2) ?_
  dsimp only
  cases (p.cachedPage file index a.outside).1 with
  | none => exact heldNothing refl
  | some page => exact single (.cacheHit _ k file.descriptor index page)

theorem resolveBlock (file : File) (index : Nat) (core : Core) (a : Ambient ε) (k : Hand) :
    Moves p stray ⟨⟨core, a⟩, k⟩ ⟨⟨core, (a.resolveBlock p file index).2⟩, k⟩ := by
  unfold Ambient.resolveBlock
  refine head (.outside ⟨core, a⟩ k (p.resolveBlock file index a.outside).2) ?_
  dsimp only
  cases (p.resolveBlock file index a.outside).1 with
  | error e => exact refl
  | ok block => exact single (.blockFound _ k file.descriptor index block)

theorem locate (file : File) (span : Span) (core : Core) (a : Ambient ε) (k : Hand) :
    Moves p stray ⟨⟨core, a⟩, k⟩ ⟨⟨core, (a.locate p file span).2⟩,
      { k with pages := held Option.toList (a.locate p file span).1 + k.pages }⟩ := by
  have hcache : Moves p stray _ _ := cachedPage file span.index core a k
  unfold Ambient.locate
  generalize a.cachedPage p file span.index = answer at hcache
  obtain ⟨_ | page, a₁⟩ := answer
  · have hnone : Moves p stray ⟨⟨core, a⟩, k⟩ ⟨⟨core, a₁⟩, k⟩ := by
      rw [Option.toList_none, Multiset.coe_nil, Multiset.zero_add] at hcache
      exact hcache
    have hblock := hnone.trans (resolveBlock file span.index core a₁ k)
    dsimp only
    generalize a₁.resolveBlock p file span.index = answer at hblock
    obtain ⟨e | block, a₂⟩ := answer
    · exact heldNothing hblock
    · dsimp only
      cases (Word.mul? block file.blockSize).bind (Word.add? · span.within) with
      | none => exact heldNothing hblock
      | some source => exact heldNothing hblock
  · exact hcache

theorem locateAll (pageSize : Nat) (file : File) (offset length : Nat) (pins : PinSet)
    (core : Core) (a : Ambient ε) (k : Hand) :
    Moves p stray ⟨⟨core, a⟩, { k with pages := ↑pins.pages + k.pages }⟩
      ⟨⟨core, (a.locateAll p pageSize file offset length pins).2⟩, { k with
        pages := held PinSet.pages (a.locateAll p pageSize file offset length pins).1 + k.pages }⟩ := by
  induction length using Nat.strongRecOn generalizing offset pins a with
  | ind length ih =>
    rw [Ambient.locateAll]
    split
    · exact refl
    · next h =>
      have hpos := Span.first_length_pos offset h
      dsimp only
      generalize Span.first pageSize offset length = span at hpos ⊢
      have hlocate : Moves p stray _ _ :=
        locate file span core a { k with pages := ↑pins.pages + k.pages }
      generalize a.locate p file span = answer at hlocate
      obtain ⟨e | ⟨extent, page⟩, a₁⟩ := answer
      · refine heldNothing (hlocate.trans ?_)
        dsimp only [held]
        rw [Multiset.zero_add]
        exact single (.release ⟨core, a₁⟩ k pins)
      · have hpages : (↑page.toList + (↑pins.pages + k.pages) : Multiset HostPage) =
            ↑(page.elim pins pins.push).pages + k.pages := by
          cases page with
          | none => exact Multiset.zero_add _
          | some page =>
            rw [Option.elim_some, PinSet.coe_push, Option.toList_some, Multiset.coe_singleton,
              Multiset.singleton_add, Multiset.cons_add]
        dsimp only [held] at hlocate
        rw [hpages] at hlocate
        refine hlocate.trans ?_
        have hrest := ih (length - span.length) (by omega) (offset + span.length)
          (page.elim pins pins.push) a₁
        dsimp only
        generalize a₁.locateAll p pageSize file (offset + span.length) (length - span.length)
          (page.elim pins pins.push) = answer at hrest ⊢
        obtain ⟨e | ⟨extents, pins'⟩, a₂⟩ := answer
        · exact hrest
        · exact hrest

theorem resolveFile (pageSize : Nat) (file : Option File) (offset length : Nat) (core : Core)
    (a : Ambient ε) (k : Hand) :
    Moves p stray ⟨⟨core, a⟩, k⟩ ⟨⟨core, (a.resolveFile p pageSize file offset length).2⟩, { k with
      pages := held (List.flatMap PinSet.pages)
        (a.resolveFile p pageSize file offset length).1 + k.pages }⟩ := by
  unfold Ambient.resolveFile
  cases file with
  | none => exact heldNothing (log ⟨core, a⟩ k .noFile rfl)
  | some file =>
    dsimp only
    cases Word.add? offset length with
    | none => exact heldNothing refl
    | some stop =>
      have hall : Moves p stray _ _ := locateAll pageSize file offset length {} core a k
      dsimp only at hall ⊢
      rw [Multiset.coe_nil, Multiset.zero_add] at hall
      generalize a.locateAll p pageSize file offset length {} = answer at hall ⊢
      obtain ⟨e | ⟨extents, ⟨pages⟩⟩, a₁⟩ := answer
      · exact hall
      · cases pages with
        | nil => exact hall
        | cons page rest =>
          simp only [held, PinSet.isEmpty, List.isEmpty_cons, Bool.false_eq_true, if_false,
            List.flatMap_cons, List.flatMap_nil, List.append_nil] at hall ⊢
          exact hall

theorem pinHost (hs : stray ∨ p.CleansNothing) (address count : Nat) (w : World ε) (k : Hand) :
    (∀ e w', w.pinHost p address count = (.error e, w') → Moves p stray ⟨w, k⟩ ⟨w', k⟩) ∧
      ∀ pages w', w.pinHost p address count = (.ok pages, w') →
        Moves p stray ⟨w, k⟩ ⟨w', { k with pages := ↑pages + k.pages }⟩ := by
  have hclean : Moves p stray ⟨w, k⟩
      ⟨World.cleanupAll p (p.pinHost address count w.ambient.outside).1.cleanups
        (w.setOutside (p.pinHost address count w.ambient.outside).2), k⟩ :=
    head (.outside w k _) (cleanupAll (hs.imp_right fun hc => hc.pinHost _ _ _) _ k)
  unfold World.pinHost
  dsimp only
  cases (p.pinHost address count w.ambient.outside).1.pages with
  | error e =>
    refine ⟨fun e' w' h => ?_, by simp⟩
    obtain ⟨-, rfl⟩ := Prod.mk.inj h
    exact hclean
  | ok pages =>
    refine ⟨by simp, fun pages' w' h => ?_⟩
    obtain ⟨he, rfl⟩ := Prod.mk.inj h
    obtain rfl := Except.ok.inj he
    exact hclean.tail (.hostPinned _ k address count pages)

theorem resolveHost (hs : stray ∨ p.CleansNothing) (pageSize address length : Nat) (w : World ε)
    (k : Hand) :
    Moves p stray ⟨w, k⟩ ⟨(w.resolveHost p pageSize address length).2, { k with
      pages := held (List.flatMap PinSet.pages)
        (w.resolveHost p pageSize address length).1 + k.pages }⟩ := by
  unfold World.resolveHost
  cases Word.add? address length with
  | none => exact heldNothing refl
  | some stop =>
    dsimp only
    generalize Word.alignDown address pageSize = first
    generalize Word.ceilDiv (stop - first) pageSize = count
    obtain ⟨herror, hok⟩ := pinHost (p := p) hs first count w k
    generalize w.pinHost p first count = answer at herror hok
    obtain ⟨e | pages, w'⟩ := answer
    · exact heldNothing (herror e w' rfl)
    · have hpin := hok pages w' rfl
      dsimp only
      split
      · exact heldNothing ((hpin.trans (log _ _ _ rfl)).tail (.release _ k ⟨pages⟩))
      · simp only [held, List.flatMap_cons, List.flatMap_nil, List.append_nil]
        exact hpin

theorem resolveChunk (hs : stray ∨ p.CleansNothing) (file : Option File) (chunk : Chunk)
    (w : World ε) (k : Hand) :
    Moves p stray ⟨w, k⟩ ⟨(w.resolveChunk p file chunk).2, { k with
      pages := held (List.flatMap PinSet.pages) (w.resolveChunk p file chunk).1 + k.pages }⟩ := by
  cases chunk with
  | host address length => exact resolveHost hs _ address length w k
  | file offset length => exact resolveFile _ file offset length w.core w.ambient k

/-- The page references that resolving chunks leaves in hand, however far it has got. -/
def inHand : Except World.Unresolved (List Extent × List PinSet) → List HostPage
  | .ok (_, pins) => pins.flatMap PinSet.pages
  | .error stop => stop.pins.flatMap PinSet.pages

theorem resolve (hs : stray ∨ p.CleansNothing) (file : Option File) (chunks : List Chunk)
    (w : World ε) (k : Hand) :
    Moves p stray ⟨w, k⟩ ⟨(w.resolve p file chunks).2, { k with
      pages := ↑(inHand (w.resolve p file chunks).1) + k.pages }⟩ := by
  induction chunks generalizing w k with
  | nil => exact heldNothing refl
  | cons chunk rest ih =>
    rw [World.resolve]
    have hchunk : Moves p stray _ _ := resolveChunk hs file chunk w k
    generalize w.resolveChunk p file chunk = answer at hchunk
    obtain ⟨e | ⟨extents, pins⟩, w₁⟩ := answer
    · exact hchunk
    · have hrest := ih w₁ { k with pages := ↑(pins.flatMap PinSet.pages) + k.pages }
      have hperm (others : List PinSet) :
          ↑(others.flatMap PinSet.pages) + (↑(pins.flatMap PinSet.pages) + k.pages) =
            (↑((pins ++ others).flatMap PinSet.pages) + k.pages : Multiset HostPage) := by
        rw [List.flatMap_append, ← Multiset.add_assoc, Multiset.coe_add,
          Multiset.coe_eq_coe.2 List.perm_append_comm]
      dsimp only
      generalize w₁.resolve p file rest = answer at hrest ⊢
      obtain ⟨stop | ⟨more, others⟩, w₂⟩ := answer
      · exact hchunk.trans (hperm stop.pins ▸ hrest)
      · exact hchunk.trans (hperm others ▸ hrest)

/-! ## Submissions -/

theorem submit (hs : stray ∨ p.CleansNothing) {id : TaskId} {r : Region} {pages : List HostPage}
    {run : Run} {w : World ε} (hin : run.request.InPage r)
    (hback : run.extent.ReadsFrom w.core.config.hostPageSize pages) (k : Hand) :
    Moves p stray ⟨w, { k with launch := some ⟨id, r, some pages⟩, offered := none }⟩
      ⟨(w.submit p id run).2, { k with launch := some ⟨id, r, some pages⟩, offered := none }⟩ := by
  have hclean : stray ∨ (w.submitAnswer p run).1.cleanups = [] :=
    hs.imp_right fun hc => hc.submit _ _ _ _
  refine head (.offer w k id r pages run hin hback) ?_
  refine head (.outside _ _ (w.submitAnswer p run).2) ((cleanupAll hclean _ _).trans ?_)
  rw [World.submit_eq]
  generalize (w.submitAnswer p run).1.verdict = verdict
  cases verdict with
  | ok => exact head (.submitted (w.offered p id run) { k with launch := some ⟨id, r, some pages⟩ }
      (w.nextFlight id run)) (landAll _ _ { k with launch := some ⟨id, r, some pages⟩ })
  | error e => exact head (.refused (w.offered p id run) { k with launch := some ⟨id, r, some pages⟩ }
      (w.nextFlight id run)) (landAll _ _ { k with launch := some ⟨id, r, some pages⟩ })

theorem feed (hs : stray ∨ p.CleansNothing) {id : TaskId} {r : Region} {pages : List HostPage}
    {runs : List Run} {w : World ε} (hin : ∀ run ∈ runs, run.request.InPage r)
    (hback : ∀ run ∈ runs, run.extent.ReadsFrom w.core.config.hostPageSize pages) (k : Hand) :
    Moves p stray ⟨w, { k with launch := some ⟨id, r, some pages⟩, offered := none }⟩
      ⟨(Sink.feed (fun run w => w.submit p id run) runs w).2,
        { k with launch := some ⟨id, r, some pages⟩, offered := none }⟩ := by
  induction runs generalizing w with
  | nil => exact refl
  | cons run rest ih =>
    have hsubmit : Moves p stray _ ⟨(w.submit p id run).2, _⟩ :=
      submit hs (hin run (by simp)) (hback run (by simp)) k
    rw [Sink.feed]
    rcases hr : w.submit p id run with ⟨e | _, w'⟩ <;> rw [hr] at hsubmit
    · exact hsubmit
    · rw [← (World.submit_ok p hr).1] at hback
      exact hsubmit.trans
        (ih (fun run hm => hin run (by simp [hm])) fun run hm => hback run (by simp [hm]))

theorem submitAll (hs : stray ∨ p.CleansNothing) {task : Task} {r : Region}
    {extents : List Extent} {pages : List HostPage} {w : World ε}
    (hback : ∀ a, (Channel.memory, a) ∈ extents.flatMap Extent.bytes → ∃ page ∈ pages,
      page.dma.raw ≤ a ∧ a < page.dma.raw + w.core.config.hostPageSize) (k : Hand) :
    Moves p stray ⟨w, { k with launch := some ⟨task.id, r, some pages⟩, offered := none }⟩
      ⟨(w.submitAll p task r extents).2,
        { k with launch := some ⟨task.id, r, some pages⟩, offered := none }⟩ := by
  have hruns := @drive_collect r.layout task.start extents r.pageSize.bytes_pos
  unfold World.submitAll
  dsimp only
  rw [Cursor.drive_eq_feed]
  generalize (Cursor.mk r.layout task.start none).drive collect extents [] = plan at hruns ⊢
  obtain ⟨answer, runs⟩ := plan
  have hreads : ∀ run ∈ runs.reverse, run.extent.ReadsFrom w.core.config.hostPageSize pages := by
    intro run hrun hmemory j hj
    have hbyte : (Channel.memory, run.extent.source + j) ∈ run.extent.bytes := by
      unfold Extent.bytes
      rw [hmemory]
      exact List.mem_map_of_mem (List.mem_range'_1.2 ⟨Nat.le_add_right .., by omega⟩)
    exact hback _ ((hruns run (List.mem_reverse.1 hrun)).2 _ hbyte)
  have hfeed : Moves p stray _ ⟨(Sink.feed (fun run w => w.submit p task.id run) runs.reverse w).2,
      _⟩ := feed hs (fun run hrun => (hruns run (List.mem_reverse.1 hrun)).1.inPage) hreads k
  dsimp only
  generalize Sink.feed (fun run w => w.submit p task.id run) runs.reverse w = fed at hfeed ⊢
  obtain ⟨e | _, w'⟩ := fed
  · exact hfeed.trans (log _ _ _ rfl)
  · cases answer with
    | ok => exact hfeed
    | error stop =>
      refine hfeed.trans ?_
      cases stop with
      | refused reason => exact reason.elim
      | outside position => exact (log _ _ _ rfl).trans (log _ _ _ rfl)

/-! ## Requests -/

/-- Giving page references to a task, or back if it is gone. -/
theorem retain (id : TaskId) (r : Region) (pins : List PinSet) (w : World ε) (k : Hand) :
    Moves p stray
      ⟨w, { k with
        launch := some { task := id, region := r }
        pages := ↑(pins.flatMap PinSet.pages) + k.pages }⟩
      ⟨w.retain p id pins,
        { k with launch := some ⟨id, r, some (pins.flatMap PinSet.pages)⟩ }⟩ := by
  unfold World.retain
  cases hr : w.core.tasks.retain? id pins with
  | some tasks => exact single (.retain w k id r pins tasks hr)
  | none =>
    have hgone : w.core.tasks.table.find? id = none := Option.map_eq_none_iff.1 hr
    refine (releaseAll pins w { k with launch := some { task := id, region := r } }).tail ?_
    exact .retainGone _ k id r _ hgone

/-- The sources of a task are resolved, and it gets the page references. -/
theorem supply (hs : stray ∨ p.CleansNothing) {task : Task} {extents : List Extent}
    {pins : List PinSet} {w w₁ : World ε}
    (hr : w.resolve p task.holds.file task.chunks = (.ok (extents, pins), w₁)) (k : Hand) :
    Moves p stray
      ⟨w, { k with launch := some { task := task.id, region := task.holds.region } }⟩
      ⟨w₁.supplied p task extents pins, { k with
        launch := some ⟨task.id, task.holds.region, some (pins.flatMap PinSet.pages)⟩ }⟩ := by
  have hresolve : Moves p stray _ _ := resolve hs task.holds.file task.chunks w { k with
    launch := some { task := task.id, region := task.holds.region } }
  rw [hr] at hresolve
  exact (hresolve.trans (retain task.id task.holds.region pins w₁ k)).trans
    (log _ _ (.resolved task.id extents.length task.length) rfl)

/-- The runs of a task go to the channels, and its launch ends. -/
theorem spend (hs : stray ∨ p.CleansNothing) {task : Task} {extents : List Extent}
    {pins : List PinSet} {w w₁ : World ε} (hc : ∀ c ∈ task.chunks, c.IsRange)
    (hps : Word.isPowerOfTwo w.core.config.hostPageSize)
    (hr : w.resolve p task.holds.file task.chunks = (.ok (extents, pins), w₁)) (k : Hand) :
    Moves p stray
      ⟨w₁.supplied p task extents pins, { k with
        launch := some ⟨task.id, task.holds.region, some (pins.flatMap PinSet.pages)⟩
        offered := none }⟩
      ⟨((w₁.supplied p task extents pins).submitAll p task task.holds.region extents).2.finish p
        task.id, { k with launch := none, offered := none }⟩ := by
  obtain ⟨backings, events, hall, rfl, rfl, hconfig, -⟩ := World.resolve_ok p hc hps hr
  have hp := Word.isPowerOfTwo_pos hps
  have hbytes := Chunk.bytes_extentsAll hp hc hall
  have hconfig' := (World.Quiet.retain p task.id (backings.flatMap Backing.pins) w₁).config
  generalize (List.zipWith (Chunk.extents w.core.config.hostPageSize) task.chunks
    backings).flatten = extents at hbytes ⊢
  refine (submitAll hs (fun a ha => ?_) k).trans (head (.endLaunch _ { k with offered := none } _)
    (cleanupDue _ task.id _ { k with launch := none, offered := none }))
  have hmem : some (Channel.memory, a) ∈
      Chunk.bytesAt w.core.config.hostPageSize task.chunks backings := by
    rw [← hbytes]
    exact List.mem_map_of_mem ha
  rw [show (w₁.supplied p task extents _).core.config = w.core.config from hconfig'.trans hconfig]
  exact Chunk.mem_bytesAt hp hmem

/-- The launch of a task that has just been registered. -/
theorem launch (hs : stray ∨ p.CleansNothing) {task : Task} {w : World ε}
    (hf : w.core.tasks.table.find? task.id = some task) (hc : ∀ c ∈ task.chunks, c.IsRange)
    (hps : Word.isPowerOfTwo w.core.config.hostPageSize) (k : Hand) :
    Moves p stray
      ⟨w, { k with
        launch := some { task := task.id, region := task.holds.region }, offered := none }⟩
      ⟨(w.launch p task).2, { k with launch := none, offered := none }⟩ := by
  rcases hr : w.resolve p task.holds.file task.chunks with ⟨stop | ⟨extents, pins⟩, w₁⟩
  · have hresolve : Moves p stray _ _ := resolve hs task.holds.file task.chunks w { k with
      launch := some { task := task.id, region := task.holds.region }, offered := none }
    rw [hr] at hresolve
    rw [World.launch_of_unresolved hf hr]
    have hreleased := (hresolve.trans (log _ _ (.unresolved task.id stop.error) rfl)).trans
      (releaseAll stop.pins _ { k with
        launch := some { task := task.id, region := task.holds.region }, offered := none })
    exact hreleased.trans (head (.abandon _ { k with offered := none } _ _) (cleanup _ _ { k with
      launch := none, offered := none }))
  · rw [World.launch_of_resolve hf hr]
    exact (supply hs hr { k with offered := none }).trans (spend hs hc hps hr k)

theorem openChecked (pageSize : Nat) (descriptor : Int) (core : Core) (a : Ambient ε) (k : Hand) :
    Moves p stray ⟨⟨core, a⟩, k⟩ ⟨⟨core, (a.openChecked p pageSize descriptor).2⟩, k⟩ := by
  unfold Ambient.openChecked Ambient.checkFile
  cases p.openFile descriptor a.outside with
  | error e => exact refl
  | ok file =>
    dsimp only
    cases file.classify pageSize (p.provider · a.outside) with
    | error reason => exact log ⟨core, a⟩ k _ rfl
    | ok kind => exact refl

theorem sourceFile (order : CopyOrder) (w : World ε) (k : Hand) :
    Moves p stray ⟨w, k⟩ ⟨(w.sourceFile p order).2, k⟩ ∧ (w.sourceFile p order).2.core = w.core := by
  unfold World.sourceFile World.liftAmbient
  split
  · cases order.descriptor with
    | none => exact ⟨log w k _ rfl, rfl⟩
    | some descriptor =>
      have hopen : Moves p stray _ _ :=
        openChecked w.core.config.hostPageSize descriptor w.core w.ambient k
      dsimp only
      generalize w.ambient.openChecked p w.core.config.hostPageSize descriptor = answer at hopen
      obtain ⟨e | file, a⟩ := answer
      · exact ⟨hopen, rfl⟩
      · exact ⟨hopen, rfl⟩
  · exact ⟨refl, rfl⟩

theorem prepare_error {order : CopyOrder} {e : Error} {w w' : World ε}
    (h : w.prepare p order = (.error e, w')) (k : Hand) : Moves p stray ⟨w, k⟩ ⟨w', k⟩ := by
  unfold World.prepare at h
  rcases ht : Chunk.totalLength order.chunks with fault | length <;> rw [ht] at h
  · obtain ⟨-, rfl⟩ := Prod.mk.inj h
    exact log? w k _ fault.isPlain_entry?
  dsimp only at h
  rcases ha : w.acquire order.handle with ⟨e' | use, w₁⟩ <;> rw [ha] at h
  · obtain ⟨-, rfl⟩ := Prod.mk.inj h
    exact acquire_error ha k
  have hacquire : Moves p stray ⟨w, k⟩ _ := acquire ha k
  simp only [World.window] at h
  rcases hw : use.region.window order.offset length with fault | start <;> rw [hw] at h
  · obtain ⟨-, rfl⟩ := Prod.mk.inj h
    have hlog : Moves p stray ⟨w₁, { k with refs := order.handle ::ₘ k.refs }⟩ _ :=
      log? w₁ _ (fault.entry? use.region) (by cases fault <;> rfl)
    exact (hacquire.trans hlog).trans (put order.handle _ k)
  dsimp only at h
  have hfile : Moves p stray ⟨w₁, { k with refs := order.handle ::ₘ k.refs }⟩ _ :=
    (sourceFile order w₁ _).1
  rcases hs : w₁.sourceFile p order with ⟨e' | file, w₂⟩ <;> rw [hs] at h hfile
  · obtain ⟨-, rfl⟩ := Prod.mk.inj h
    exact (hacquire.trans hfile).trans (put order.handle w₂ k)
  · simp at h

/-- A request that is admitted: the reference to its region is in hand, and its task has the next
number. -/
theorem prepare_ok {order : CopyOrder} {task : Task} {w w' : World ε}
    (h : w.prepare p order = (.ok task, w')) (k : Hand) :
    ∃ (w₁ : World ε) (use : RegionUse),
      Moves p stray ⟨w, k⟩ ⟨w₁, { k with refs := order.handle ::ₘ k.refs }⟩ ∧
      w' = w₁.setTasks w₁.core.tasks.allocate.2 ∧ task.id = w₁.core.tasks.allocate.1 ∧
      task.slot = {} ∧ task.holds.pins = [] ∧
      w₁.core.mappings.table.find? order.handle = some use ∧ use.region = task.holds.region := by
  obtain @⟨_, _, use, _, w₁, w₂, -, ha, -, hs⟩ := World.prepare_eq_ok_iff.1 h
  obtain ⟨hfile, hcore⟩ : Moves p stray ⟨w₁, { k with refs := order.handle ::ₘ k.refs }⟩ _ ∧ _ :=
    sourceFile order w₁ _
  rw [hs] at hfile hcore
  refine ⟨w₂, use, (acquire ha k).trans hfile, rfl, rfl, rfl, rfl, ?_, rfl⟩
  rw [show w₂.core = w₁.core from hcore]
  exact World.find?_acquire ha

/-- A request is admitted: its task is registered, with the reference to its region. -/
theorem enroll {order : CopyOrder} {task : Task} {w w' : World ε}
    (h : w.prepare p order = (.ok task, w')) (k : Hand) :
    Moves p stray ⟨w, { k with launch := none }⟩ ⟨w'.enrolled task, { k with
      launch := some { task := task.id, region := task.holds.region } }⟩ := by
  obtain ⟨w₁, use, hmoves, rfl, hid, hslot, hpins, hfind, hregion⟩ :=
    @prepare_ok _ p stray _ _ _ _ h { k with launch := none }
  exact (hmoves.tail (.enroll w₁ k order.handle task use hid hslot hpins hfind hregion)).trans
    (log _ _ (.admitted task.id) rfl)

theorem copyAsync (hs : stray ∨ p.CleansNothing) {order : CopyOrder} {w : World ε}
    (hps : Word.isPowerOfTwo w.core.config.hostPageSize) (k : Hand) :
    Moves p stray ⟨w, { k with launch := none, offered := none }⟩
      ⟨(w.copyAsync p order).2, { k with launch := none, offered := none }⟩ := by
  rcases hp : w.prepare p order with ⟨e | task, w'⟩
  · unfold World.copyAsync
    rw [hp]
    exact (prepare_error hp _).tail (.reject _ _)
  · obtain ⟨hquiet, hchunks, hranges, -⟩ := World.prepare_ok p hp
    rw [World.copyAsync_of_prepare hp]
    exact (enroll hp { k with offered := none }).trans
      (launch hs (w'.find?_enrolled task) (hchunks ▸ hranges) (hquiet.config.symm ▸ hps) k)

theorem await (id : TaskId) (rest : Rest) (hr : rest.region? = none) (w : World ε) (k : Hand) :
    Moves p stray ⟨w, k⟩ ⟨(w.await id rest).2, k⟩ := by
  unfold World.await
  dsimp only
  rcases hi : w.core.tasks.install? id w.core.parking.fresh.1 with _ | ⟨displaced, tasks⟩
  · exact refl
  · exact single (.install w k id rest displaced tasks hi hr)

theorem copy (hs : stray ∨ p.CleansNothing) {order : CopyOrder} {w : World ε}
    (hps : Word.isPowerOfTwo w.core.config.hostPageSize) (k : Hand) :
    Moves p stray ⟨w, { k with launch := none, offered := none }⟩
      ⟨(w.copy p order).2, { k with launch := none, offered := none }⟩ := by
  have hcopy : Moves p stray _ ⟨(w.copyAsync p order).2, _⟩ := copyAsync hs hps k
  unfold World.copy
  generalize w.copyAsync p order = answer at hcopy ⊢
  obtain ⟨e | id, w'⟩ := answer
  · exact hcopy
  · have hawait : Moves p stray ⟨w', { k with launch := none, offered := none }⟩
        ⟨(w'.await id (.copy id)).2, _⟩ := await id (.copy id) rfl w' _
    replace hcopy := hcopy.trans hawait
    dsimp only
    generalize w'.await id (.copy id) = answer at hcopy ⊢
    obtain ⟨value | waiter, w₁⟩ := answer
    · exact hcopy
    · exact hcopy

/-! ## Looking at files, and commands -/

theorem checkFile (descriptor : Int) (w : World ε) (k : Hand) :
    Moves p stray ⟨w, k⟩ ⟨(w.checkFile p descriptor).2, k⟩ :=
  openChecked w.core.config.hostPageSize descriptor w.core w.ambient k

theorem probePages (file : File) (indices : List Nat) (core : Core) (a : Ambient ε) (k : Hand) :
    Moves p stray ⟨⟨core, a⟩, k⟩
      ⟨⟨core, (a.probePages p World.logProbe file indices).2⟩, k⟩ := by
  induction indices generalizing a with
  | nil => exact refl
  | cons index rest ih =>
    have hpage : Moves p stray ⟨⟨core, a⟩, k⟩ ⟨⟨core, (a.probePage p file index).2⟩, k⟩ := by
      have hcache : Moves p stray _ _ := cachedPage file index core a k
      unfold Ambient.probePage
      generalize a.cachedPage p file index = answer at hcache ⊢
      obtain ⟨_ | page, a₁⟩ := answer
      · rw [Option.toList_none, Multiset.coe_nil, Multiset.zero_add] at hcache
        have hblock := hcache.trans (resolveBlock file index core a₁ k)
        dsimp only
        generalize a₁.resolveBlock p file index = answer at hblock ⊢
        obtain ⟨e | block, a₂⟩ := answer
        · exact hblock
        · exact hblock
      · exact hcache.tail (.release ⟨core, a₁⟩ k ⟨[page]⟩)
    exact hpage.trans ((log ⟨core, _⟩ k (.probed (a.probePage p file index).1) rfl).trans (ih _))

theorem probe (descriptor : Int) (offset length : Nat) (w : World ε) (k : Hand) :
    Moves p stray ⟨w, k⟩ ⟨(w.probe p World.logProbe descriptor offset length).2, k⟩ := by
  have hopen : Moves p stray _ _ :=
    openChecked w.core.config.hostPageSize descriptor w.core w.ambient k
  unfold World.probe World.liftAmbient
  dsimp only
  generalize w.ambient.openChecked p w.core.config.hostPageSize descriptor = answer at hopen ⊢
  obtain ⟨e | file, a⟩ := answer
  · exact hopen
  · exact hopen.trans (probePages file _ w.core a k)

theorem execute (hs : stray ∨ p.CleansNothing) (caller : Pid) (block : Block) {w : World ε}
    (hps : Word.isPowerOfTwo w.core.config.hostPageSize) (k : Hand) :
    Moves p stray ⟨w, { k with map := none, launch := none, offered := none }⟩
      ⟨(w.execute p caller block).2, { k with map := none, launch := none, offered := none }⟩ := by
  cases block with
  | checkFile descriptor => exact checkFile descriptor w _
  | map b => exact map caller _ _ w { k with launch := none, offered := none }
  | unmap handle => exact teardown ⟨handle⟩ .unmap w _
  | info b => exact info ⟨b.handle⟩ b.capacity w _
  | wait task => exact await ⟨task⟩ .wait rfl w _
  | debug descriptor offset length => exact probe descriptor offset length w _
  | copy b =>
    unfold World.execute World.decodeCopy
    dsimp only
    cases b.order with
    | error fault => exact log? w _ _ fault.isPlain_entry?
    | ok order => exact copy hs hps { k with map := none }
  | copyAsync b =>
    unfold World.execute World.decodeCopy
    dsimp only
    cases b.order with
    | error fault => exact log? w _ _ fault.isPlain_entry?
    | ok order => exact copyAsync hs hps { k with map := none }

theorem failCommand (number : Nat) (block : Block) (e : Error) (w : World ε) (k : Hand) :
    Moves p stray ⟨w, k⟩ ⟨(w.failCommand number block e).2, k⟩ :=
  log w k _ rfl

theorem dispatch (hs : stray ∨ p.CleansNothing) (caller : Pid) (number : Nat) (block : Block)
    {w : World ε} (hps : Word.isPowerOfTwo w.core.config.hostPageSize) (k : Hand) :
    Moves p stray ⟨w, { k with map := none, launch := none, offered := none }⟩
      ⟨(w.dispatch p caller number block).2,
        { k with map := none, launch := none, offered := none }⟩ := by
  unfold World.dispatch
  cases CommandCode.ofNumber? number with
  | none => exact failCommand number block _ w _
  | some code =>
    dsimp only
    split
    · exact (log w _ _ rfl).trans (failCommand number block _ _ _)
    · have hexecute : Moves p stray _ ⟨(w.execute p caller block).2, _⟩ :=
        execute hs caller block hps k
      generalize w.execute p caller block = answer at hexecute ⊢
      obtain ⟨(e | after) | waiter, w'⟩ := answer
      · exact hexecute.trans (failCommand number block e w' _)
      · exact hexecute
      · exact hexecute

end Moves

end PeerDma
