import Mathlib.Algebra.Ring.Nat
import Mathlib.Data.List.Nodup
import Mathlib.Data.Multiset.AddSub
import PeerDma.Flights
import PeerDma.Mappings
import PeerDma.Tasks

/-!
# Counting over tables

A walk over a table meets every entry once, so that a change at one key shows in what is counted
over the table as one entry more or fewer.

* `Sharded.insert_insert`, `Sharded.erase_insert`: operations that cancel out.
* `Sharded.toList_perm`, `Sharded.toList_insert_perm`: one entry of the walk set apart.
* `Tasks.onRegion`, `Tasks.pages`: how many tasks have a reference to a region, and which page
  references tasks hold, after each operation on tasks.
* `Flights.land?_eq_some`, `Flights.perm_land`: what the end of a submission leaves in flight.
* `Mappings.Sets`, `Mappings.Replaces`: operations on regions change what one handle names.
-/

namespace PeerDma

/-! ## Lists with keys -/

/-- What a list with different keys has besides one element has other keys. -/
theorem perm_cons_filter_ne {α β : Type} [DecidableEq α] [DecidableEq β] {key : α → β} {l : List α}
    {x : α} (hn : (l.map key).Nodup) (hx : x ∈ l) : l.Perm (x :: l.filter (key · ≠ key x)) := by
  have herase : l.erase x = l.filter (key · ≠ key x) := by
    rw [hn.of_map.erase_eq_filter]
    refine List.filter_congr fun y hy => ?_
    by_cases he : y = x
    · simp [he]
    · have hne : key y ≠ key x := fun hk => he (List.inj_on_of_nodup_map hn hy hx hk)
      simp [he, hne]
  rw [← herase]
  exact List.perm_cons_erase hx

/-! ## Operations that cancel out -/

namespace Table

variable {κ ν : Type} {t u : Table κ ν} {key : κ} {value value' : ν}

theorem eq_of_entries (h : t.entries = u.entries) : t = u := by
  cases t
  cases u
  cases h
  rfl

variable [DecidableEq κ]

theorem size_eq_zero (h : ∀ key, t.find? key = none) : t.size = 0 :=
  List.length_eq_zero_iff.2 (List.eq_nil_iff_forall_not_mem.2 fun e he =>
    find?_eq_none_iff.1 (h e.1) e.2 he)

theorem entries_insert_old (h : t.contains key) : (t.insert key value).entries =
    t.entries.map fun e => if e.1 = key then (key, value) else e := by
  unfold insert
  rw [dif_pos h]

theorem entries_insert_new (h : t.find? key = none) :
    (t.insert key value).entries = t.entries ++ [(key, value)] := by
  unfold insert
  rw [dif_neg (by simp [contains, h])]

theorem ne_of_find?_eq_none (h : t.find? key = none) {e : κ × ν} (he : e ∈ t.entries) :
    e.1 ≠ key := by
  rintro rfl
  exact find?_eq_none_iff.1 h e.2 he

theorem insert_self (h : t.find? key = some value) : t.insert key value = t := by
  refine eq_of_entries ((entries_insert_old (by simp [contains, h])).trans ?_)
  refine (List.map_congr_left fun e he => ?_).trans (List.map_id _)
  split
  · next hk =>
    have hfind := find?_eq_some_iff.2 he
    rw [hk, h] at hfind
    exact Prod.ext hk.symm (Option.some.inj hfind)
  · rfl

theorem insert_insert : (t.insert key value).insert key value' = t.insert key value' := by
  have hc : (t.insert key value).contains key := by simp [contains, find?_insert]
  refine eq_of_entries ((entries_insert_old hc).trans ?_)
  cases h : t.find? key with
  | none =>
    rw [entries_insert_new h, entries_insert_new h, List.map_append]
    congr 1
    · exact (List.map_congr_left fun e he => if_neg (ne_of_find?_eq_none h he)).trans (List.map_id _)
    · simp
  | some old =>
    rw [entries_insert_old (by simp [contains, h]), entries_insert_old (by simp [contains, h]),
      List.map_map]
    refine List.map_congr_left fun e _ => ?_
    by_cases he : e.1 = key <;> simp [he]

theorem erase_insert (h : t.find? key = none) : (t.insert key value).erase key = t := by
  refine eq_of_entries ?_
  show (t.insert key value).entries.filter (·.1 ≠ key) = t.entries
  rw [entries_insert_new h, List.filter_append]
  have hold : t.entries.filter (·.1 ≠ key) = t.entries :=
    List.filter_eq_self.2 fun e he => by simpa using ne_of_find?_eq_none h he
  rw [hold]
  simp

end Table

namespace Sharded

variable {κ ν : Type} {t u : Sharded κ ν} {key : κ} {value value' : ν}

theorem eq_of_shards (hp : t.place = u.place) (hs : t.shards = u.shards) : t = u := by
  cases t
  cases u
  cases hp
  cases hs
  rfl

theorem shard_setShard {new : Table κ ν} {h : ∀ e ∈ new.entries, t.shardOf e.1 = t.shardOf key} :
    (t.setShard key new h).shard key = new := by
  have hs : (t.setShard key new h).shardOf key = t.shardOf key := by simp [shardOf, setShard]
  simp only [shard, hs]
  simp only [setShard, List.get_eq_getElem, List.getElem_set_self]

theorem setShard_setShard {new new' last : Table κ ν}
    {h : ∀ e ∈ new.entries, t.shardOf e.1 = t.shardOf key}
    {h' : ∀ e ∈ new'.entries, (t.setShard key new h).shardOf e.1 = (t.setShard key new h).shardOf key}
    {h'' : ∀ e ∈ last.entries, t.shardOf e.1 = t.shardOf key} (he : new' = last) :
    (t.setShard key new h).setShard key new' h' = t.setShard key last h'' := by
  subst he
  refine eq_of_shards rfl ?_
  have hs : (t.setShard key new h).shardOf key = t.shardOf key := by simp [shardOf, setShard]
  show ((t.shards.set _ new).set _ new') = t.shards.set _ new'
  rw [hs, List.set_set]

theorem setShard_self {new : Table κ ν} {h : ∀ e ∈ new.entries, t.shardOf e.1 = t.shardOf key}
    (he : new = t.shard key) : t.setShard key new h = t := by
  subst he
  exact eq_of_shards rfl (List.set_getElem_self _)

variable [DecidableEq κ]

theorem insert_self (h : t.find? key = some value) : t.insert key value = t :=
  setShard_self (Table.insert_self h)

theorem shard_insert : (t.insert key value).shard key = (t.shard key).insert key value :=
  shard_setShard

theorem insert_insert : (t.insert key value).insert key value' = t.insert key value' := by
  have hnew : ((t.insert key value).shard key).insert key value' =
      (t.shard key).insert key value' := by rw [shard_insert, Table.insert_insert]
  exact setShard_setShard hnew

theorem erase_insert (h : t.find? key = none) : (t.insert key value).erase key = t := by
  have hnew : ((t.insert key value).shard key).erase key = t.shard key := by
    rw [shard_insert, Table.erase_insert h]
  have hset : (t.insert key value).erase key =
      t.setShard key (t.shard key) fun _ => shardOf_of_mem_shard := setShard_setShard hnew
  exact hset.trans (setShard_self rfl)

end Sharded

/-! ## Walks -/

namespace Sharded

variable {κ ν : Type}

/-- The shards have no key in common. -/
theorem nodup_toList (t : Sharded κ ν) : t.toList.Nodup := by
  refine List.nodup_flatMap.2 ⟨fun s _ => s.nodup.of_map Prod.fst, ?_⟩
  refine List.pairwise_iff_getElem.2 fun i j hi hj hij => ?_
  intro e hei hej
  have h₁ := t.placed i _ (List.getElem?_eq_getElem hi) e hei
  have h₂ := t.placed j _ (List.getElem?_eq_getElem hj) e hej
  omega

/-- The keys, shard by shard. -/
def keys (t : Sharded κ ν) : List κ := t.toList.map Prod.fst

theorem length_keys (t : Sharded κ ν) : t.keys.length = t.size := by
  have hfold (shards : List (Table κ ν)) (n : Nat) :
      shards.foldl (fun n shard => n + shard.size) n = n + (shards.flatMap Table.entries).length := by
    induction shards generalizing n with
    | nil => rfl
    | cons s rest ih =>
      rw [List.foldl_cons, ih, List.flatMap_cons, List.length_append, Nat.add_assoc]
      rfl
  rw [keys, List.length_map, size, hfold, Nat.zero_add]
  rfl

variable [DecidableEq κ] {t u : Sharded κ ν} {key : κ} {value : ν}

theorem find?_empty (place : κ → Nat) (count : Nat) (key : κ) :
    (empty place count : Sharded κ ν).find? key = none := by
  have hshard : (empty place count : Sharded κ ν).shard key = Table.empty :=
    List.eq_of_mem_replicate (List.get_mem ..)
  rw [find?, hshard]
  rfl

theorem toList_empty (place : κ → Nat) (count : Nat) :
    (empty place count : Sharded κ ν).toList = [] := by
  refine List.eq_nil_iff_forall_not_mem.2 fun e he => ?_
  rw [mem_toList_iff, find?_empty] at he
  cases he

/-- A walk over a table that differs from another by one entry more. -/
theorem toList_perm_cons (hkey : t.find? key = none)
    (h : ∀ other, u.find? other = if other = key then some value else t.find? other) :
    u.toList.Perm ((key, value) :: t.toList) := by
  have hnew : (key, value) ∉ t.toList := by simp [mem_toList_iff, hkey]
  refine (List.perm_ext_iff_of_nodup u.nodup_toList (List.nodup_cons.2 ⟨hnew, t.nodup_toList⟩)).2 ?_
  rintro ⟨k, v⟩
  rw [mem_toList_iff, h, List.mem_cons, mem_toList_iff]
  by_cases hk : k = key
  · simp [hk, hkey, eq_comm]
  · simp [hk]

theorem find?_erase_self (t : Sharded κ ν) (key : κ) : (t.erase key).find? key = none := by
  rw [find?_erase, if_pos rfl]

/-- An entry that changes, or goes, leaves other keys without one. -/
theorem find?_insert_eq_none {other : κ} {value' : ν} (hkey : t.find? key = some value)
    (h : t.find? other = none) : (t.insert key value').find? other = none := by
  rw [find?_insert, if_neg, h]
  rintro rfl
  cases h.symm.trans hkey

theorem find?_insert_ne_none {other : κ} (h : t.find? other ≠ none) :
    (t.insert key value).find? other ≠ none := by
  rw [find?_insert]
  split
  · exact Option.some_ne_none value
  · exact h

theorem find?_erase_eq_none {other : κ} (h : t.find? other = none) :
    (t.erase key).find? other = none := by
  rw [find?_erase, h, ite_self]

theorem toList_perm (h : t.find? key = some value) :
    t.toList.Perm ((key, value) :: (t.erase key).toList) := by
  refine toList_perm_cons (find?_erase_self t key) fun other => ?_
  rw [find?_erase]
  split
  · next he => rw [he, h]
  · rfl

theorem toList_insert_perm (t : Sharded κ ν) (key : κ) (value : ν) :
    (t.insert key value).toList.Perm ((key, value) :: (t.erase key).toList) := by
  refine toList_perm_cons (find?_erase_self t key) fun other => ?_
  rw [find?_insert, find?_erase]
  split <;> rfl

/-- A new key: the walk meets one entry more. -/
theorem toList_insert_new (value : ν) (h : t.find? key = none) :
    (t.insert key value).toList.Perm ((key, value) :: t.toList) :=
  toList_perm_cons h (find?_insert t key · value)

/-! ### Keys -/

theorem mem_keys : key ∈ t.keys ↔ ∃ value, t.find? key = some value := by
  simp [keys, mem_toList_iff]

theorem toList_eq_nil (h : ∀ key, t.find? key = none) : t.toList = [] :=
  List.eq_nil_iff_forall_not_mem.2 fun e he => by
    cases (h e.1).symm.trans (mem_toList_iff.1 he)

theorem size_eq_zero (h : ∀ key, t.find? key = none) : t.size = 0 := by
  rw [← length_keys, keys, toList_eq_nil h]
  rfl

theorem isEmpty_iff : t.isEmpty ↔ ∀ key, t.find? key = none := by
  have hlist : t.isEmpty ↔ t.toList = [] := by
    simp [isEmpty, toList, Table.isEmpty, List.flatMap_eq_nil_iff]
  rw [hlist]
  refine ⟨fun hnil key => Option.eq_none_iff_forall_ne_some.2 fun value hf => ?_, toList_eq_nil⟩
  have hmem := mem_toList_iff.2 hf
  rw [hnil] at hmem
  cases hmem

theorem keys_insert_new (value : ν) (h : t.find? key = none) :
    (t.insert key value).keys.Perm (key :: t.keys) :=
  (toList_insert_new value h).map Prod.fst

theorem keys_perm (h : t.find? key = some value) : t.keys.Perm (key :: (t.erase key).keys) :=
  (toList_perm h).map Prod.fst

/-- An entry changes. -/
theorem keys_insert_perm {value' : ν} (h : t.find? key = some value) :
    (t.insert key value').keys.Perm t.keys :=
  ((toList_insert_perm t key value').map Prod.fst).trans (keys_perm h).symm

end Sharded

/-! ## What tasks hold -/

/-- Whether a task has a reference to a region, as a number. -/
def Task.on (t : Task) (handle : Handle) : Nat := if t.holds.region.handle = handle then 1 else 0

/-- The page references that a task holds. -/
def Task.pages (t : Task) : List HostPage := t.holds.pins.flatMap PinSet.pages

namespace Tasks

/-- How many registered tasks have a reference to a region. -/
def onRegion (t : Tasks) (handle : Handle) : Nat :=
  (t.table.toList.map fun e => e.2.on handle).sum

/-- The page references that registered tasks hold. -/
def pages (t : Tasks) : Multiset HostPage := t.table.toList.flatMap fun e => e.2.pages

variable {t t' : Tasks} {id : TaskId} {task : Task}

theorem onRegion_congr (h : t'.table = t.table) : t'.onRegion = t.onRegion := by
  unfold onRegion
  rw [h]

theorem pages_congr (h : t'.table = t.table) : t'.pages = t.pages := by
  unfold pages
  rw [h]

/-- A table with one task more. -/
theorem onRegion_of_perm {e : TaskId × Task}
    (h : t'.table.toList.Perm (e :: t.table.toList)) (handle : Handle) :
    t'.onRegion handle = e.2.on handle + t.onRegion handle := by
  unfold onRegion
  rw [(h.map _).sum_nat, List.map_cons, List.sum_cons]

theorem pages_of_perm {e : TaskId × Task} (h : t'.table.toList.Perm (e :: t.table.toList)) :
    t'.pages = ↑e.2.pages + t.pages := by
  unfold pages
  rw [Multiset.coe_eq_coe.2 (h.flatMap_right _), List.flatMap_cons, Multiset.coe_add]

/-- A table in which one task has changed, but not its region. -/
theorem onRegion_insert {task' : Task} (hf : t.table.find? id = some task)
    (ht : t'.table = t.table.insert id task') (hr : task'.holds.region = task.holds.region)
    (handle : Handle) : t'.onRegion handle = t.onRegion handle := by
  have hold := Sharded.toList_perm hf
  have hnew := Sharded.toList_insert_perm t.table id task'
  unfold onRegion
  rw [ht, (hnew.map _).sum_nat, (hold.map _).sum_nat, List.map_cons, List.map_cons, List.sum_cons,
    List.sum_cons]
  simp only [Task.on, hr]

/-- Without tasks there is nothing that they hold. -/
theorem onRegion_eq_zero (h : ∀ id, t.table.find? id = none) (handle : Handle) :
    t.onRegion handle = 0 := by
  rw [onRegion, Sharded.toList_eq_nil h]
  rfl

theorem pages_eq_zero (h : ∀ id, t.table.find? id = none) : t.pages = 0 := by
  rw [pages, Sharded.toList_eq_nil h]
  rfl

/-- A table in which one task has got page references. -/
theorem pages_insert {task' : Task} {more : List HostPage} (hf : t.table.find? id = some task)
    (ht : t'.table = t.table.insert id task') (hp : task'.pages = task.pages ++ more) :
    t'.pages = t.pages + ↑more := by
  have hold := Sharded.toList_perm hf
  have hnew := Sharded.toList_insert_perm t.table id task'
  unfold pages
  rw [ht, Multiset.coe_eq_coe.2 (hnew.flatMap_right _), Multiset.coe_eq_coe.2 (hold.flatMap_right _),
    Multiset.coe_add, Multiset.coe_eq_coe, List.flatMap_cons, List.flatMap_cons, hp,
    List.append_assoc, List.append_assoc]
  exact List.Perm.append_left _ List.perm_append_comm

/-! ### What operations do -/

theorem remove?_eq_some (h : t.remove? id = some (task, t')) :
    t.table.find? id = some task ∧ t' = { t with table := t.table.erase id } := by
  obtain ⟨found, hf, he⟩ := Option.map_eq_some_iff.1 h
  obtain ⟨rfl, rfl⟩ := Prod.mk.inj he
  exact ⟨hf, rfl⟩

theorem retain?_eq_some {pins : List PinSet} (h : t.retain? id pins = some t') :
    ∃ task, t.table.find? id = some task ∧ t' = { t with
      table := t.table.insert id
        { task with holds := { task.holds with pins := task.holds.pins ++ pins } } } := by
  obtain ⟨task, hf, rfl⟩ := Option.map_eq_some_iff.1 h
  exact ⟨task, hf, rfl⟩

theorem install?_eq_some {w : Waiter} {displaced : Option Waiter}
    (h : t.install? id w = some (displaced, t')) :
    ∃ task, t.table.find? id = some task ∧ displaced = task.slot.occupant ∧
      t' = { t with table := t.table.insert id { task with slot := ⟨some w⟩ } } := by
  obtain ⟨task, hf, he⟩ := Option.map_eq_some_iff.1 h
  obtain ⟨rfl, rfl⟩ := Prod.mk.inj he
  exact ⟨task, hf, rfl, rfl⟩

/-- A new task. -/
theorem pages_register (h : t.table.find? task.id = none) :
    (t.allocate.2.register task).pages = ↑task.pages + t.pages :=
  pages_of_perm (e := (task.id, task)) (Sharded.toList_insert_new task h)

theorem pages_remove (h : t.remove? id = some (task, t')) : t.pages = ↑task.pages + t'.pages := by
  obtain ⟨hf, rfl⟩ := remove?_eq_some h
  exact pages_of_perm (e := (id, task)) (Sharded.toList_perm hf)

theorem pages_le (hf : t.table.find? id = some task) : ↑task.pages ≤ t.pages := by
  have hr : t.remove? id = some (task, { t with table := t.table.erase id }) := by
    rw [remove?, hf]
    rfl
  rw [pages_remove hr]
  exact Multiset.le_add_right _ _

theorem pages_retain {pins : List PinSet} (h : t.retain? id pins = some t') :
    t'.pages = t.pages + ↑(pins.flatMap PinSet.pages) := by
  obtain ⟨task, hf, rfl⟩ := retain?_eq_some h
  exact pages_insert hf rfl List.flatMap_append

theorem pages_install {w : Waiter} {displaced : Option Waiter}
    (h : t.install? id w = some (displaced, t')) : t'.pages = t.pages := by
  obtain ⟨task, hf, -, rfl⟩ := install?_eq_some h
  refine (pages_insert hf rfl ?_).trans (Multiset.add_zero t.pages)
  exact (List.append_nil _).symm

@[simp] theorem table_finish (t : Tasks) (id : TaskId) : (t.finish id).2.table = t.table := by
  unfold finish
  split <;> rfl

@[simp] theorem ids_finish (t : Tasks) (id : TaskId) : (t.finish id).2.ids = t.ids := by
  unfold finish
  split <;> rfl

@[simp] theorem stats_finish (t : Tasks) (id : TaskId) : (t.finish id).2.stats = t.stats := by
  unfold finish
  split <;> rfl

/-! ### Counts of submissions -/

theorem outstandingOf_begin (t : Tasks) (id other : TaskId) :
    (t.begin id).outstandingOf other =
      if other = id then t.outstandingOf id + 1 else t.outstandingOf other := by
  show ((t.outstanding.insert id _).find? other).getD 0 = _
  rw [Table.find?_insert]
  split <;> rfl

theorem outstandingOf_register (t : Tasks) (task : Task) (other : TaskId) :
    (t.register task).outstandingOf other =
      if other = task.id then 1 else t.outstandingOf other := by
  show ((t.outstanding.insert task.id 1).find? other).getD 0 = _
  rw [Table.find?_insert]
  split <;> rfl

theorem outstandingOf_finish (t : Tasks) (id other : TaskId) :
    (t.finish id).2.outstandingOf other =
      if other = id then t.outstandingOf id - 1 else t.outstandingOf other := by
  unfold finish
  split
  · next h =>
    split
    · next he => rw [he, h]
    · rfl
  · next h =>
    show ((t.outstanding.erase id).find? other).getD 0 = _
    rw [Table.find?_erase]
    split
    · rw [h]; rfl
    · rfl
  · next n h =>
    show ((t.outstanding.insert id (n + 1)).find? other).getD 0 = _
    rw [Table.find?_insert]
    split
    · rw [h]; rfl
    · rfl

/-- The last one ends a task. -/
theorem finish_fst_iff (t : Tasks) (id : TaskId) : (t.finish id).1 ↔ t.outstandingOf id = 1 := by
  unfold finish
  split <;> simp [*]

end Tasks

/-! ## Submissions in flight -/

namespace Flights

variable {fs fs' : Flights} {token : Token} {f : Flight}

theorem land?_eq_some (h : fs.land? token = some (f, fs')) :
    f ∈ fs.flights ∧ f.token = token ∧
      fs' = { fs with flights := fs.flights.filter (·.token ≠ token) } := by
  obtain ⟨found, hf, he⟩ := Option.map_eq_some_iff.1 h
  obtain ⟨rfl, rfl⟩ := Prod.mk.inj he
  exact ⟨List.mem_of_find?_eq_some hf, by simpa using List.find?_some hf, rfl⟩

theorem land?_eq_none (h : fs.land? token = none) :
    fs.flights.filter (·.token ≠ token) = fs.flights := by
  have hnone := List.find?_eq_none.1 (Option.map_eq_none_iff.1 h)
  exact List.filter_eq_self.2 fun f hf => by simpa using hnone f hf

/-- One submission more. -/
theorem ofTask_cons (next : Nat) (f : Flight) (fs : Flights) (id : TaskId) :
    (Flights.mk next (f :: fs.flights)).ofTask id =
      if id = f.task then f :: fs.ofTask id else fs.ofTask id := by
  unfold ofTask
  by_cases h : f.task = id
  · rw [if_pos h.symm, List.filter_cons_of_pos (by simpa using h)]
  · rw [if_neg (Ne.symm h), List.filter_cons_of_neg (by simpa using h)]

theorem mem_ofTask {id : TaskId} : f ∈ fs.ofTask id ↔ f ∈ fs.flights ∧ f.task = id := by
  simp [ofTask]

theorem ofTask_land (h : fs.land? token = some (f, fs')) (id : TaskId) :
    fs'.ofTask id = (fs.ofTask id).filter (·.token ≠ token) := by
  obtain ⟨-, -, rfl⟩ := land?_eq_some h
  unfold ofTask
  rw [List.filter_filter, List.filter_filter]
  exact List.filter_congr fun _ _ => Bool.and_comm ..

theorem length_ofTask_land_lt (h : fs.land? token = some (f, fs')) :
    (fs'.ofTask f.task).length < (fs.ofTask f.task).length := by
  obtain ⟨hmem, htoken, -⟩ := land?_eq_some h
  rw [ofTask_land h, List.length_filter_lt_length_iff_exists]
  exact ⟨f, mem_ofTask.2 ⟨hmem, rfl⟩, by simp [htoken]⟩

/-- The end of a submission is that of one only, if no two have the same token. -/
theorem perm_land (hn : (fs.flights.map Flight.token).Nodup)
    (h : fs.land? token = some (f, fs')) : fs.flights.Perm (f :: fs'.flights) := by
  obtain ⟨hmem, rfl, rfl⟩ := land?_eq_some h
  exact perm_cons_filter_ne hn hmem

theorem length_ofTask_land (hn : (fs.flights.map Flight.token).Nodup)
    (h : fs.land? token = some (f, fs')) (id : TaskId) :
    (fs.ofTask id).length = (fs'.ofTask id).length + if id = f.task then 1 else 0 := by
  have hlength := ((perm_land hn h).filter (·.task = id)).length_eq
  rw [List.filter_cons] at hlength
  unfold ofTask
  by_cases he : id = f.task <;> simpa [he, eq_comm] using hlength

end Flights

/-! ## References to regions -/

theorem RegionUse.put?_eq_some {u u' : RegionUse} {woken : Option Waiter}
    (h : u.put? = some (woken, u')) :
    u.refs = u'.refs + 1 ∧ u'.region = u.region ∧
      (0 < u'.refs ∧ woken = none ∧ u'.slot = u.slot ∨
        u'.refs = 0 ∧ woken = u.slot.occupant ∧ u'.slot.occupant = none) := by
  unfold put? at h
  split at h
  · cases h
  · next hr =>
    obtain ⟨rfl, rfl⟩ := Prod.mk.inj (Option.some.inj h)
    exact ⟨hr, rfl, .inr ⟨rfl, rfl, rfl⟩⟩
  · next n hr =>
    obtain ⟨rfl, rfl⟩ := Prod.mk.inj (Option.some.inj h)
    exact ⟨hr, rfl, .inl ⟨Nat.succ_pos n, rfl, rfl⟩⟩

namespace Mappings

variable {m m' : Mappings} {h : Handle}

theorem use?_eq_some_iff {u : RegionUse} :
    m.use? h = some u ↔
      m.table.find? h = some u ∨ m.table.find? h = none ∧ m.draining.find? h = some u := by
  unfold use?
  cases m.table.find? h <;> simp

theorem use?_registered {u : RegionUse} (hf : m.table.find? h = some u) : m.use? h = some u :=
  use?_eq_some_iff.2 (.inl hf)

/-- One handle comes to name something else, or nothing, and the others name what they did. -/
def Sets (m m' : Mappings) (h : Handle) (o : Option RegionUse) : Prop :=
  ∀ other, m'.use? other = if other = h then o else m.use? other

theorem Sets.of_ne {o : Option RegionUse} (hs : Sets m m' h o) {other : Handle} (hne : other ≠ h) :
    m'.use? other = m.use? other :=
  (hs other).trans (if_neg hne)

theorem Sets.self {o : Option RegionUse} (hs : Sets m m' h o) : m'.use? h = o :=
  (hs h).trans (if_pos rfl)

theorem sets_register (m : Mappings) (r : Region) :
    Sets m (m.register r) r.handle (some { region := r }) := by
  intro other
  show ((m.table.insert r.handle _).find? other).or _ = _
  rw [Sharded.find?_insert]
  split <;> rfl

/-- The entry of a region, registered or draining, is replaced by another. -/
structure Replaces (m m' : Mappings) (h : Handle) (u u' : RegionUse) : Prop where
  cases :
    m.table.find? h = some u ∧ m' = { m with table := m.table.insert h u' } ∨
    m.table.find? h = none ∧ m.draining.find? h = some u ∧
      m' = { m with draining := m.draining.insert h u' }

theorem Replaces.use? {u u' : RegionUse} (hr : Replaces m m' h u u') : m.use? h = some u := by
  obtain ⟨hf, -⟩ | ⟨hn, hf, -⟩ := hr.cases
  · simp [Mappings.use?, hf]
  · simp [Mappings.use?, hn, hf]

theorem Replaces.sets {u u' : RegionUse} (hr : Replaces m m' h u u') :
    Sets m m' h (some u') := by
  intro other
  obtain ⟨-, rfl⟩ | ⟨hn, -, rfl⟩ := hr.cases
  · simp only [Mappings.use?, Sharded.find?_insert]
    split <;> rfl
  · simp only [Mappings.use?, Table.find?_insert]
    split
    · next he => rw [he, hn]; rfl
    · rfl

theorem Replaces.handles {u u' : RegionUse} (hr : Replaces m m' h u u') :
    m'.handles.next = m.handles.next := by
  obtain ⟨-, rfl⟩ | ⟨-, -, rfl⟩ := hr.cases <;> rfl

theorem Replaces.table_eq_none {u u' : RegionUse} (hr : Replaces m m' h u u') {other : Handle}
    (hn : m.table.find? other = none) : m'.table.find? other = none := by
  obtain ⟨hf, rfl⟩ | ⟨-, -, rfl⟩ := hr.cases
  · exact Sharded.find?_insert_eq_none hf hn
  · exact hn

theorem acquire?_eq_some {use : RegionUse} (ha : m.acquire? h = some (use, m')) :
    ∃ u, use = { u with refs := u.refs + 1 } ∧ m.table.find? h = some u ∧
      m' = { m with table := m.table.insert h { u with refs := u.refs + 1 } } := by
  obtain ⟨u, hf, he⟩ := Option.map_eq_some_iff.1 ha
  obtain ⟨rfl, rfl⟩ := Prod.mk.inj he
  exact ⟨u, rfl, hf, rfl⟩

theorem acquire?_replaces {use : RegionUse} (ha : m.acquire? h = some (use, m')) :
    ∃ u, use = { u with refs := u.refs + 1 } ∧ Replaces m m' h u use := by
  obtain ⟨u, rfl, hf, rfl⟩ := acquire?_eq_some ha
  exact ⟨u, rfl, ⟨.inl ⟨hf, rfl⟩⟩⟩

theorem put?_eq_some {woken : Option Waiter} (hp : m.put? h = some (woken, m')) :
    ∃ u u', u.put? = some (woken, u') ∧ Replaces m m' h u u' := by
  unfold put? at hp
  cases ht : m.table.find? h with
  | some u =>
    simp only [ht, Option.map_eq_some_iff] at hp
    obtain ⟨⟨woken', u'⟩, hu, he⟩ := hp
    obtain ⟨rfl, rfl⟩ := Prod.mk.inj he
    exact ⟨u, u', hu, ⟨.inl ⟨ht, rfl⟩⟩⟩
  | none =>
    simp only [ht] at hp
    cases hd : m.draining.find? h with
    | none => simp [hd] at hp
    | some u =>
      simp only [hd, Option.map_eq_some_iff] at hp
      obtain ⟨⟨woken', u'⟩, hu, he⟩ := hp
      obtain ⟨rfl, rfl⟩ := Prod.mk.inj he
      exact ⟨u, u', hu, ⟨.inr ⟨ht, hd, rfl⟩⟩⟩

theorem put?_eq_none (hp : m.put? h = none) : ∀ u, m.use? h = some u → u.refs = 0 := by
  have hzero {u : RegionUse} (hu : u.put? = none) : u.refs = 0 := by
    unfold RegionUse.put? at hu
    split at hu
    · assumption
    · cases hu
    · cases hu
  intro u hu
  unfold put? at hp
  cases ht : m.table.find? h with
  | some v =>
    obtain rfl : v = u := by simpa [use?, ht] using hu
    simp only [ht, Option.map_eq_none_iff] at hp
    exact hzero hp
  | none =>
    have hd : m.draining.find? h = some u := by simpa [use?, ht] using hu
    simp only [ht, hd, Option.map_eq_none_iff] at hp
    exact hzero hp

theorem detach?_eq_some {use : RegionUse} (hd : m.detach? h = some (use, m')) :
    m.table.find? h = some use ∧ m' = { m with table := m.table.erase h } := by
  obtain ⟨u, hf, he⟩ := Option.map_eq_some_iff.1 hd
  obtain ⟨rfl, rfl⟩ := Prod.mk.inj he
  exact ⟨hf, rfl⟩

theorem sets_detach {use : RegionUse} (hd : m.detach? h = some (use, m')) :
    Sets m (m'.forget h) h none := by
  obtain ⟨-, rfl⟩ := detach?_eq_some hd
  intro other
  show ((m.table.erase h).find? other).or ((m.draining.erase h).find? other) = _
  rw [Sharded.find?_erase, Table.find?_erase]
  split <;> rfl

theorem revoke?_eq_some (hr : m.revoke? h = some m') : ∃ pending, m' = { m with pending } := by
  unfold revoke? at hr
  split at hr
  · exact ⟨_, (Option.some.inj hr).symm⟩
  · cases hr

end Mappings

end PeerDma
