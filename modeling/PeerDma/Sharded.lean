import PeerDma.Table

/-!
# Sharded tables

A map split into shards by a placement function, so that work on unrelated keys does not meet.
A key is kept only in the shard it is placed in (`placed`), so the split does not show:
`find?_insert` and `find?_erase` are the equations of `Table`, and `mem_toList_iff` says that a
walk over the shards meets exactly what look-ups find.
-/

namespace PeerDma

/-- A finite map split into shards. -/
structure Sharded (κ ν : Type) where
  /-- Picks the shard of a key, modulo their number. -/
  place : κ → Nat
  shards : List (Table κ ν)
  shards_ne : shards ≠ []
  placed : ∀ i t, shards[i]? = some t → ∀ e ∈ t.entries, place e.1 % shards.length = i

namespace Sharded

variable {κ ν : Type}

/-- The map without entries, in `count` shards; there is always one. -/
def empty (place : κ → Nat) (count : Nat) : Sharded κ ν where
  place := place
  shards := List.replicate (max count 1) Table.empty
  shards_ne := by simp only [ne_eq, List.replicate_eq_nil_iff]; omega
  placed := by
    intro i t h e he
    obtain rfl := List.eq_of_mem_replicate (List.mem_of_getElem? h)
    simp [Table.empty] at he

/-- The number of shards. -/
def shardCount (t : Sharded κ ν) : Nat := t.shards.length

theorem shardCount_pos (t : Sharded κ ν) : 0 < t.shards.length :=
  List.length_pos_iff.2 t.shards_ne

/-- The shard of a key. -/
def shardOf (t : Sharded κ ν) (key : κ) : Nat := t.place key % t.shards.length

theorem shardOf_lt (t : Sharded κ ν) (key : κ) : t.shardOf key < t.shards.length :=
  Nat.mod_lt _ t.shardCount_pos

/-- The entries that share a shard with a key. -/
def shard (t : Sharded κ ν) (key : κ) : Table κ ν :=
  t.shards.get ⟨t.shardOf key, t.shardOf_lt key⟩

/-- The number of entries. -/
def size (t : Sharded κ ν) : Nat := t.shards.foldl (fun n shard => n + shard.size) 0

/-- Whether there is no entry. -/
def isEmpty (t : Sharded κ ν) : Bool := t.shards.all Table.isEmpty

/-- The entries, shard by shard. -/
def toList (t : Sharded κ ν) : List (κ × ν) := t.shards.flatMap Table.entries

/-- The values, shard by shard. -/
def values (t : Sharded κ ν) : List ν := t.toList.map Prod.snd

/-- The table with its number of shards. -/
def describe (t : Sharded κ ν) : String :=
  "ShardedTable \x7b shards: " ++ toString t.shardCount ++ " \x7d"

/-- The map with another table in the shard of a key, all of whose keys belong there. -/
def setShard (t : Sharded κ ν) (key : κ) (new : Table κ ν)
    (h : ∀ e ∈ new.entries, t.shardOf e.1 = t.shardOf key) : Sharded κ ν where
  place := t.place
  shards := t.shards.set (t.shardOf key) new
  shards_ne := by simpa using t.shards_ne
  placed := by
    intro i s hs e he
    rw [List.length_set]
    by_cases hi : t.shardOf key = i
    · subst hi
      simp [t.shardOf_lt key] at hs
      subst hs
      exact h e he
    · rw [List.getElem?_set_ne hi] at hs
      exact t.placed i s hs e he

theorem shardOf_of_mem_shard {t : Sharded κ ν} {key : κ} {e : κ × ν}
    (h : e ∈ (t.shard key).entries) : t.shardOf e.1 = t.shardOf key :=
  t.placed _ _ (List.getElem?_eq_getElem (t.shardOf_lt key)) e h

variable [DecidableEq κ]

/-- The value at a key. -/
def find? (t : Sharded κ ν) (key : κ) : Option ν := (t.shard key).find? key

/-- Whether a key has a value. -/
def contains (t : Sharded κ ν) (key : κ) : Bool := (t.find? key).isSome

/-- The map with a value at a key, in place of what was there. -/
def insert (t : Sharded κ ν) (key : κ) (value : ν) : Sharded κ ν :=
  t.setShard key ((t.shard key).insert key value) fun e he => by
    rcases Table.mem_insert.1 he with rfl | ⟨he, -⟩
    · rfl
    · exact shardOf_of_mem_shard he

/-- The map without a key. -/
def erase (t : Sharded κ ν) (key : κ) : Sharded κ ν :=
  t.setShard key ((t.shard key).erase key) fun _ he =>
    shardOf_of_mem_shard (Table.mem_erase.1 he).1

theorem find?_setShard (t : Sharded κ ν) (key other : κ) (new : Table κ ν)
    (h : ∀ e ∈ new.entries, t.shardOf e.1 = t.shardOf key) :
    (t.setShard key new h).find? other =
      if t.shardOf other = t.shardOf key then new.find? other else t.find? other := by
  have hs : (t.setShard key new h).shardOf other = t.shardOf other := by
    simp [shardOf, setShard]
  unfold find? shard
  split
  · rename_i he
    congr 1
    simp only [hs]
    simp only [setShard, he, List.get_eq_getElem, List.getElem_set_self]
  · rename_i he
    congr 1
    simp only [hs]
    simp only [setShard, List.get_eq_getElem]
    rw [List.getElem_set_ne (Ne.symm he)]

theorem find?_insert (t : Sharded κ ν) (key other : κ) (value : ν) :
    (t.insert key value).find? other = if other = key then some value else t.find? other := by
  rw [insert, find?_setShard, Table.find?_insert]
  by_cases ho : other = key
  · simp [ho]
  · simp only [ho, if_false]
    split
    · rename_i he
      simp only [find?, shard, he]
    · rfl

theorem find?_erase (t : Sharded κ ν) (key other : κ) :
    (t.erase key).find? other = if other = key then none else t.find? other := by
  rw [erase, find?_setShard, Table.find?_erase]
  by_cases ho : other = key
  · simp [ho]
  · simp only [ho, if_false]
    split
    · rename_i he
      simp only [find?, shard, he]
    · rfl

/-- A walk over the shards meets exactly what look-ups find. -/
theorem mem_toList_iff {t : Sharded κ ν} {key : κ} {value : ν} :
    (key, value) ∈ t.toList ↔ t.find? key = some value := by
  rw [find?, Table.find?_eq_some_iff]
  constructor
  · intro h
    obtain ⟨s, hs, he⟩ := List.mem_flatMap.1 h
    obtain ⟨i, hi, rfl⟩ := List.getElem_of_mem hs
    have := t.placed i _ (List.getElem?_eq_getElem hi) _ he
    simpa only [shard, shardOf, List.get_eq_getElem, this] using he
  · intro h
    exact List.mem_flatMap.2 ⟨_, List.getElem_mem _, h⟩

end Sharded

end PeerDma
