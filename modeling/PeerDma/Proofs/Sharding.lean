import Mathlib.Data.List.Sort
import PeerDma.Bench.Basic
import PeerDma.Proofs.Alike
import PeerDma.Proofs.References
import PeerDma.Status

/-!
# Shards do not show

A table that is split into shards answers like one that is not. So an instance does not show how
many shards its tables have, nor where they put a key: after the same run, its snapshot is the same.

* `TableOp`, `Sharded.perform`, `Table.perform`: what can be done with a table.
* `Sharded.answers_eq`: a sharded table answers like a flat one.
* `Mappings.Keyed.snapshot_pairwise`, `Mappings.Keyed.mem_snapshot`: snapshots list every registered
  region once, in the order of handles.
* `System.after`: runs as functions of what happens.
* `shards_hidden`: the whole of it.
-/

namespace PeerDma

/-! ## Tables -/

/-- What can be done with a table. -/
inductive TableOp (κ ν : Type) where
  | insert (key : κ) (value : ν)
  | get (key : κ)
  | remove (key : κ)
  | count
  | isEmpty
  | walk

/-- What it answers. -/
inductive TableAnswer (κ ν : Type) where
  /-- The value that a key has, or had before. -/
  | value (value : Option ν)
  | count (count : Nat)
  | isEmpty (isEmpty : Bool)
  /-- Every entry as often as it is met, in no particular order. -/
  | entries (entries : Multiset (κ × ν))

section

variable {κ ν : Type} [DecidableEq κ]

/-- An operation on a table in one piece. -/
def Table.perform (t : Table κ ν) : TableOp κ ν → TableAnswer κ ν × Table κ ν
  | .insert key value => (.value (t.find? key), t.insert key value)
  | .get key => (.value (t.find? key), t)
  | .remove key => (.value (t.find? key), t.erase key)
  | .count => (.count t.size, t)
  | .isEmpty => (.isEmpty t.isEmpty, t)
  | .walk => (.entries ↑t.entries, t)

/-- What a table in one piece answers to one operation after the other. -/
def Table.answers : List (TableOp κ ν) → Table κ ν → List (TableAnswer κ ν)
  | [], _ => []
  | op :: rest, t =>
    let (answer, t) := t.perform op
    answer :: answers rest t

namespace Sharded

/-- An operation on a sharded table. -/
def perform (t : Sharded κ ν) : TableOp κ ν → TableAnswer κ ν × Sharded κ ν
  | .insert key value => (.value (t.find? key), t.insert key value)
  | .get key => (.value (t.find? key), t)
  | .remove key => (.value (t.find? key), t.erase key)
  | .count => (.count t.size, t)
  | .isEmpty => (.isEmpty t.isEmpty, t)
  | .walk => (.entries ↑t.toList, t)

/-- What a sharded table answers to one operation after the other. -/
def answers : List (TableOp κ ν) → Sharded κ ν → List (TableAnswer κ ν)
  | [], _ => []
  | op :: rest, t =>
    let (answer, t) := t.perform op
    answer :: answers rest t

/-- The same is found in both. -/
def Splits (t : Sharded κ ν) (u : Table κ ν) : Prop := ∀ key, t.find? key = u.find? key

namespace Splits

variable {t : Sharded κ ν} {u : Table κ ν}

theorem toList_perm (h : t.Splits u) : t.toList.Perm u.entries := by
  refine (List.perm_ext_iff_of_nodup t.nodup_toList (u.nodup.of_map Prod.fst)).2 ?_
  rintro ⟨key, value⟩
  rw [mem_toList_iff, h key, Table.find?_eq_some_iff]

theorem size (h : t.Splits u) : t.size = u.size := by
  rw [← length_keys, keys, List.length_map, h.toList_perm.length_eq, Table.size]

theorem isEmpty (h : t.Splits u) : t.isEmpty = u.isEmpty := by
  rw [Bool.eq_iff_iff, isEmpty_iff, Table.isEmpty, List.isEmpty_iff]
  constructor
  · intro hnone
    have hperm := h.toList_perm
    rw [toList_eq_nil hnone] at hperm
    exact List.nil_perm.1 hperm
  · intro hnil key
    rw [h key, Table.find?, hnil]
    rfl

/-- An operation answers the same in both, and leaves the same to be found. -/
theorem perform (h : t.Splits u) (op : TableOp κ ν) :
    Both Splits (t.perform op) (u.perform op) := by
  cases op with
  | insert key value =>
    exact .of_eq (congrArg _ (h key)) fun other => by
      rw [find?_insert, Table.find?_insert, h other]
  | get key => exact .of_eq (congrArg _ (h key)) h
  | remove key =>
    exact .of_eq (congrArg _ (h key)) fun other => by
      rw [find?_erase, Table.find?_erase, h other]
  | count => exact .of_eq (congrArg _ h.size) h
  | isEmpty => exact .of_eq (congrArg _ h.isEmpty) h
  | walk => exact .of_eq (congrArg _ (Multiset.coe_eq_coe.2 h.toList_perm)) h

theorem answers_eq (h : t.Splits u) (ops : List (TableOp κ ν)) :
    t.answers ops = u.answers ops := by
  induction ops generalizing t u with
  | nil => rfl
  | cons op rest ih =>
    unfold Sharded.answers Table.answers
    exact (h.perform op).elim fun answer t u h => congrArg (answer :: ·) (ih h)

end Splits

/-- A table in shards answers like one in one piece, wherever it puts its keys. -/
theorem answers_eq (place : κ → Nat) (count : Nat) (ops : List (TableOp κ ν)) :
    (empty place count : Sharded κ ν).answers ops = Table.empty.answers ops := by
  have h : (empty place count : Sharded κ ν).Splits .empty := find?_empty place count
  exact h.answers_eq ops

end Sharded

end

/-! ## Snapshots -/

theorem RegionStatus.notAfter_trans (a b c : RegionStatus)
    (hab : decide (a.handle.id ≤ b.handle.id)) (hbc : decide (b.handle.id ≤ c.handle.id)) :
    decide (a.handle.id ≤ c.handle.id) :=
  decide_eq_true (Nat.le_trans (of_decide_eq_true hab) (of_decide_eq_true hbc))

theorem RegionStatus.notAfter_total (a b : RegionStatus) :
    decide (a.handle.id ≤ b.handle.id) || decide (b.handle.id ≤ a.handle.id) := by
  simpa using Nat.le_total a.handle.id b.handle.id

namespace Mappings.Keyed

variable {m n : Mappings}

/-- Entries have different handles. -/
theorem nodup_handles (hk : m.Keyed) : (m.snapshot.map RegionStatus.handle).Nodup := by
  have hperm : m.snapshot.Perm (m.table.values.map RegionUse.status) := List.mergeSort_perm _ _
  rw [(hperm.map _).nodup_iff, Sharded.values, List.map_map, List.map_map]
  refine m.table.nodup_toList.map_on fun e he f hf heq => ?_
  obtain ⟨h, use⟩ := e
  obtain ⟨h', use'⟩ := f
  rw [Sharded.mem_toList_iff] at he hf
  have hsame : use.region.handle = use'.region.handle := heq
  rw [(hk.registered h use he).1, (hk.registered h' use' hf).1] at hsame
  subst hsame
  rw [Option.some.inj (he.symm.trans hf)]

/-- A snapshot is in the order of handles. -/
theorem snapshot_pairwise (hk : m.Keyed) :
    m.snapshot.Pairwise fun a b => a.handle.id < b.handle.id := by
  have hle : m.snapshot.Pairwise fun a b => a.handle.id ≤ b.handle.id := by
    have hsorted := List.pairwise_mergeSort RegionStatus.notAfter_trans RegionStatus.notAfter_total
      (m.table.values.map RegionUse.status)
    exact hsorted.imp of_decide_eq_true
  have hne : m.snapshot.Pairwise fun a b => a.handle ≠ b.handle :=
    List.pairwise_map.1 hk.nodup_handles
  refine hle.imp₂ (fun a b hle hne => ?_) hne
  exact lt_of_le_of_ne hle fun heq => hne (congrArg Handle.mk heq)

/-- A snapshot lists the registered regions and no others. -/
theorem mem_snapshot (hk : m.Keyed) {status : RegionStatus} :
    status ∈ m.snapshot ↔
      ∃ use, m.table.find? status.handle = some use ∧ status = use.status := by
  rw [Mappings.snapshot, (List.mergeSort_perm _ _).mem_iff, List.mem_map]
  constructor
  · rintro ⟨use, huse, rfl⟩
    obtain ⟨⟨h, _⟩, hmem, rfl⟩ := List.mem_map.1 huse
    have hfind := Sharded.mem_toList_iff.1 hmem
    obtain ⟨hhandle, -⟩ := hk.registered h _ hfind
    exact ⟨_, by rw [RegionUse.status, hhandle]; exact hfind, rfl⟩
  · rintro ⟨use, hfind, rfl⟩
    exact ⟨use, List.mem_map.2 ⟨_, Sharded.mem_toList_iff.2 hfind, rfl⟩, rfl⟩

/-- Tables that are alike have one snapshot. -/
theorem snapshot_eq (hk : m.Keyed) (hk' : n.Keyed) (h : m.Alike n) : m.snapshot = n.snapshot := by
  have hperm : (m.table.values.map RegionUse.status).Perm (n.table.values.map RegionUse.status) :=
    (h.table.toList_perm.map Prod.snd).map RegionUse.status
  have hsorted : m.snapshot.Perm n.snapshot :=
    ((List.mergeSort_perm _ _).trans hperm).trans (List.mergeSort_perm _ _).symm
  exact List.Perm.eq_of_pairwise (fun a b _ _ hab hba => absurd (hab.trans hba) (lt_irrefl _))
    hk.snapshot_pairwise hk'.snapshot_pairwise hsorted

end Mappings.Keyed

/-- What a snapshot shows of a region: its owner, its geometry and the references to it. -/
structure RegionStatus.Shows (status : RegionStatus) (use : RegionUse) : Prop where
  handle : status.handle = use.region.handle
  owner : status.owner = use.region.owner
  refs : status.refs = use.refs
  base : status.base = use.region.base
  offset : status.offset = use.region.offset
  length : status.length = use.region.length
  version : status.version = use.region.table.version
  pageSize : status.pageSize = use.region.pageSize
  pages : status.pages = use.region.pages

theorem RegionStatus.shows_iff {status : RegionStatus} {use : RegionUse} :
    status.Shows use ↔ status = use.status := by
  constructor
  · rintro ⟨h₁, h₂, h₃, h₄, h₅, h₆, h₇, h₈, h₉⟩
    cases status
    cases h₁; cases h₂; cases h₃; cases h₄; cases h₅; cases h₆; cases h₇; cases h₈; cases h₉
    rfl
  · rintro rfl
    exact ⟨rfl, rfl, rfl, rfl, rfl, rfl, rfl, rfl, rfl⟩

/-! ## Runs -/

variable {ε : Type} {p : Platform ε}

/-- What can happen: a call, or a change of the surroundings. -/
inductive Happening (ε : Type) where
  | call (c : Call)
  | outside (x : ε)

namespace System

/-- A new instance, and no references in the hands of callers. -/
def fresh (placement : Placement) (config : Config) (x : ε) : System ε :=
  { world := .fresh placement config x }

/-- A system after something has happened. -/
def undergo (p : Platform ε) (s : System ε) : Happening ε → System ε
  | .call c => s.perform p c
  | .outside x => { s with world := s.world.setOutside x }

/-- A system after a run. -/
def after (p : Platform ε) (run : List (Happening ε)) (s : System ε) : System ε :=
  run.foldl (undergo p) s

/-- A run leaves systems alike. -/
theorem Alike.after {s t : System ε} (h : s.Alike t) (run : List (Happening ε)) :
    (s.after p run).Alike (t.after p run) := by
  induction run generalizing s t with
  | nil => exact h
  | cons first rest ih =>
    refine ih ?_
    cases first with
    | call c => exact h.perform p c
    | outside x => exact ⟨h.world.setOutside x, h.held⟩

end System

namespace Reach

variable {s : System ε} {placement placement' : Placement} {config config' : Config} {x : ε}

theorem fresh (hc : config.check = .ok ()) :
    Reach p (fun _ => True) (.fresh placement config x) := by
  refine @start _ p _ placement config x (.fresh placement config x) ?_
  unfold Ambient.start
  rw [hc]
  rfl

theorem undergo (h : Reach p (fun _ => True) s) (happening : Happening ε) :
    Reach p (fun _ => True) (s.undergo p happening) := by
  cases happening with
  | call c => exact .call h c trivial
  | outside x => exact .outside h x

theorem after (h : Reach p (fun _ => True) s) (run : List (Happening ε)) :
    Reach p (fun _ => True) (s.after p run) := by
  induction run generalizing s with
  | nil => exact h
  | cons first rest ih => exact ih (h.undergo first)

/-- Every system comes from a new instance by a run. -/
theorem exists_run (h : Reach p (fun _ => True) s) : ∃ placement config x run,
    config.check = .ok () ∧ s = (System.fresh placement config x).after p run := by
  induction h with
  | @start placement config x w h =>
    obtain ⟨rfl, -⟩ := Ambient.start_ok h
    refine ⟨placement, config, x, [], ?_, rfl⟩
    unfold Ambient.start at h
    split at h
    · cases h
    · next hc => exact hc
  | call _ c _ ih =>
    obtain ⟨placement, config, x, run, hc, rfl⟩ := ih
    exact ⟨placement, config, x, run ++ [.call c], hc, by
      rw [System.after, System.after, List.foldl_append]
      rfl⟩
  | outside _ y ih =>
    obtain ⟨placement, config, x, run, hc, rfl⟩ := ih
    exact ⟨placement, config, x, run ++ [.outside y], hc, by
      rw [System.after, System.after, List.foldl_append]
      rfl⟩

theorem keyed (h : Reach p (fun _ => True) s) : s.world.core.mappings.Keyed :=
  h.any_accounted.keyed.regions

/-- The same run, with other shards, ends with the same snapshot, and the same has passed between
the instance and its surroundings, but for the line with the configuration. -/
theorem snapshot_after (hc : config.check = .ok ()) (hc' : config'.check = .ok ())
    (hpage : config.hostPageSize = config'.hostPageSize)
    (hbound : config.boundShift = config'.boundShift) (run : List (Happening ε)) :
    let world := ((System.fresh placement config x).after p run).world
    let world' := ((System.fresh placement' config' x).after p run).world
    world.core.mappings.snapshot = world'.core.mappings.snapshot ∧
      world.ambient.history.dropLast = world'.ambient.history.dropLast := by
  have hfresh : (System.fresh placement config x).Alike (.fresh placement' config' x) :=
    ⟨World.alike_fresh x hpage hbound, rfl⟩
  have halike : ((System.fresh placement config x).after p run).world.Alike
      ((System.fresh placement' config' x).after p run).world := (hfresh.after run).world
  have hsnapshot := ((fresh hc).after run).keyed.snapshot_eq ((fresh hc').after run).keyed
    halike.mappings
  exact ⟨hsnapshot, halike.ambient.history⟩

end Reach

/-- Other numbers of shards, if there are any, are no fault. -/
theorem Config.check_shards {config : Config} {shards taskShards : Nat} (hc : config.check = .ok ())
    (hs : 0 < shards) (ht : 0 < taskShards) :
    { config with mappingShards := shards, taskShards }.check = .ok () := by
  unfold check at hc ⊢
  split at hc
  · cases hc
  · rw [if_neg (by simp only [not_or]; omega)]
    exact hc

/-- **Shards do not show.**

* Wherever a table puts its keys, and however many shards it has, it answers to any sequence of
  operations like a table in one piece. A walk over its shards meets every entry once.
* After any run, a snapshot is in strictly increasing order of handles, so that it lists no region
  twice. It lists the registered regions, with what is recorded of each and the references that it
  has at that time, and no others. None of those that drain is among them.
* Had the instance put its keys elsewhere, or had other numbers of shards, the same run would
  have ended with the same snapshot, and with the same history but for the line with its
  configuration. -/
theorem shards_hidden (p : Platform ε) :
    (∀ {κ ν : Type} [DecidableEq κ] (place : κ → Nat) (count : Nat) (ops : List (TableOp κ ν)),
        (Sharded.empty place count).answers ops = Table.empty.answers ops) ∧
      (∀ {κ ν : Type} [DecidableEq κ] (t : Sharded κ ν), t.toList.Nodup ∧
        ∀ key value, (key, value) ∈ t.toList ↔ t.find? key = some value) ∧
      ∀ s, Reach p (fun _ => True) s →
        let m := s.world.core.mappings
        (m.snapshot.Pairwise fun a b => a.handle.id < b.handle.id) ∧
          (∀ status, status ∈ m.snapshot ↔
            ∃ use, m.table.find? status.handle = some use ∧ status.Shows use) ∧
          (∀ h, m.draining.find? h ≠ none → ∀ status ∈ m.snapshot, status.handle ≠ h) ∧
          (∃ placement config x run, config.check = .ok () ∧
            s = (System.fresh placement config x).after p run) ∧
          ∀ placement config x run, config.check = .ok () →
            s = (System.fresh placement config x).after p run →
            ∀ placement' shards taskShards, 0 < shards → 0 < taskShards →
              let other := (System.fresh placement'
                { config with mappingShards := shards, taskShards } x).after p run
              other.world.core.mappings.snapshot = m.snapshot ∧
                other.world.ambient.history.dropLast = s.world.ambient.history.dropLast := by
  refine ⟨Sharded.answers_eq, fun t => ⟨t.nodup_toList, fun _ _ => Sharded.mem_toList_iff⟩,
    fun s h => ?_⟩
  intro m
  have hk : m.Keyed := h.keyed
  have hmem (status : RegionStatus) : status ∈ m.snapshot ↔
      ∃ use, m.table.find? status.handle = some use ∧ status.Shows use := by
    simp only [hk.mem_snapshot, RegionStatus.shows_iff]
  refine ⟨hk.snapshot_pairwise, hmem, fun r hd status hstatus heq => ?_, h.exists_run, ?_⟩
  · obtain ⟨use, hfind, -⟩ := (hmem status).1 hstatus
    obtain ⟨use', hd⟩ := Option.ne_none_iff_exists'.1 hd
    rw [heq, (hk.draining r use' hd).2] at hfind
    cases hfind
  · rintro placement config x run hc rfl placement' shards taskShards hs ht
    exact Reach.snapshot_after (Config.check_shards hc hs ht) hc rfl rfl run

/-- A bench with three regions, the first of which drains. -/
def Bench.regions (placement : Placement) (config : Config) : System Bench :=
  (System.fresh placement config {}).after platform
    [.call (.map ⟨1⟩ ⟨0x10000⟩ 0x10000), .call (.map ⟨2⟩ ⟨0x40000⟩ 0x20000),
      .call (.map ⟨3⟩ ⟨0x80000⟩ 0x10000), .call (.acquire ⟨1⟩), .call (.acquire ⟨3⟩),
      .call (.teardown ⟨1⟩ .unmap)]

/-- All regions in one shard, or in shards that a walk meets in the opposite order. -/
theorem shards_hidden_regions :
    let together := Bench.regions { ofHandle := fun _ => 7 } { mappingShards := 1 }
    let apart := Bench.regions { ofHandle := fun h => 100 - h.id } {}
    Reach Bench.platform (fun _ => True) together ∧
      (together.world.core.mappings.table.toList.map fun e => e.1.id) = [2, 3] ∧
      (apart.world.core.mappings.table.toList.map fun e => e.1.id) = [3, 2] ∧
      apart.world.core.mappings.snapshot = together.world.core.mappings.snapshot ∧
      (together.world.core.mappings.draining.find? ⟨1⟩).isSome ∧
      ∀ status ∈ together.world.core.mappings.snapshot, status.handle ≠ ⟨1⟩ := by
  intro together apart
  have h : Reach Bench.platform (fun _ => True) together := (Reach.fresh rfl).after _
  have hwalk : (together.world.core.mappings.table.toList.map fun e => e.1.id) = [2, 3] := by
    decide +kernel
  have hwalk' : (apart.world.core.mappings.table.toList.map fun e => e.1.id) = [3, 2] := by
    decide +kernel
  have hdrains : (together.world.core.mappings.draining.find? ⟨1⟩).isSome := by decide +kernel
  obtain ⟨-, -, hall⟩ := shards_hidden Bench.platform
  obtain ⟨-, -, hdraining, -, hruns⟩ := hall together h
  obtain ⟨hsame, -⟩ := hruns { ofHandle := fun _ => 7 } { mappingShards := 1 } {} _ rfl rfl
    { ofHandle := fun h => 100 - h.id } 48 100 (by decide) (by decide)
  exact ⟨h, hwalk, hwalk', hsame, hdrains, hdraining ⟨1⟩ (Option.ne_none_iff_isSome.2 hdrains)⟩

end PeerDma
