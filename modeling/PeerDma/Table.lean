/-!
# Tables

A finite map as a list of entries with distinct keys. `Table.find?` is the view through which the
other operations are stated: `find?_insert`, `find?_erase`.
-/

namespace PeerDma

/-- A finite map. -/
structure Table (κ ν : Type) where
  entries : List (κ × ν)
  nodup : (entries.map Prod.fst).Nodup

namespace Table

variable {κ ν : Type}

/-- The map without entries. -/
def empty : Table κ ν := ⟨[], List.nodup_nil⟩

/-- The number of entries. -/
def size (t : Table κ ν) : Nat := t.entries.length

/-- Whether there is no entry. -/
def isEmpty (t : Table κ ν) : Bool := t.entries.isEmpty

variable [DecidableEq κ]

/-- The value at a key. -/
def find? (t : Table κ ν) (key : κ) : Option ν :=
  (t.entries.find? (·.1 = key)).map Prod.snd

/-- Whether a key has a value. -/
def contains (t : Table κ ν) (key : κ) : Bool := (t.find? key).isSome

/-- The map without a key. -/
def erase (t : Table κ ν) (key : κ) : Table κ ν where
  entries := t.entries.filter (·.1 ≠ key)
  nodup := t.nodup.sublist (List.filter_sublist.map _)

theorem not_mem_keys {t : Table κ ν} {key : κ} (h : ¬t.contains key) :
    key ∉ t.entries.map Prod.fst := by
  intro hm
  obtain ⟨e, he, rfl⟩ := List.mem_map.1 hm
  apply h
  simp only [contains, find?, Option.isSome_map, List.find?_isSome]
  exact ⟨e, he, by simp⟩

/-- The map with a value at a key, in place of what was there; a new key comes last. -/
def insert (t : Table κ ν) (key : κ) (value : ν) : Table κ ν :=
  if h : t.contains key then
    { entries := t.entries.map fun e => if e.1 = key then (key, value) else e
      nodup := by
        have hk : (Prod.fst ∘ fun e : κ × ν => if e.1 = key then (key, value) else e) =
            Prod.fst := by
          funext e
          by_cases he : e.1 = key <;> simp [he]
        rw [List.map_map, hk]
        exact t.nodup }
  else
    { entries := t.entries ++ [(key, value)]
      nodup := by
        rw [List.map_append, List.nodup_append]
        refine ⟨t.nodup, by simp, ?_⟩
        rintro a ha b hb rfl
        simp only [List.map_cons, List.map_nil, List.mem_singleton] at hb
        exact not_mem_keys h (hb ▸ ha) }

@[simp] theorem find?_empty (key : κ) : (empty : Table κ ν).find? key = none := rfl

theorem mem_erase {t : Table κ ν} {key : κ} {e : κ × ν} :
    e ∈ (t.erase key).entries ↔ e ∈ t.entries ∧ e.1 ≠ key := by
  simp [erase]

/-- Distinct keys: an entry is what a look-up of its key finds. -/
theorem find?_eq_some_iff {t : Table κ ν} {key : κ} {value : ν} :
    t.find? key = some value ↔ (key, value) ∈ t.entries := by
  obtain ⟨entries, nodup⟩ := t
  simp only [find?]
  induction entries with
  | nil => simp
  | cons e rest ih =>
    obtain ⟨k, v⟩ := e
    simp only [List.map_cons, List.nodup_cons] at nodup
    rw [List.find?_cons]
    by_cases h : k = key
    · subst h
      have : (k, value) ∉ rest := fun hm => nodup.1 (List.mem_map.2 ⟨_, hm, rfl⟩)
      simp [this, eq_comm]
    · simp only [h, decide_false, ih nodup.2, List.mem_cons, Prod.mk.injEq]
      constructor
      · exact .inr
      · rintro (⟨rfl, -⟩ | hm)
        · exact absurd rfl h
        · exact hm

theorem find?_eq_none_iff {t : Table κ ν} {key : κ} :
    t.find? key = none ↔ ∀ value, (key, value) ∉ t.entries := by
  rw [Option.eq_none_iff_forall_ne_some]
  exact forall_congr' fun v => not_congr find?_eq_some_iff

theorem contains_iff {t : Table κ ν} {key : κ} :
    t.contains key ↔ ∃ value, (key, value) ∈ t.entries := by
  rw [contains, Option.isSome_iff_exists]
  exact exists_congr fun _ => find?_eq_some_iff

theorem mem_insert {t : Table κ ν} {key : κ} {value : ν} {e : κ × ν} :
    e ∈ (t.insert key value).entries ↔ e = (key, value) ∨ e ∈ t.entries ∧ e.1 ≠ key := by
  unfold insert
  split
  · rename_i h
    obtain ⟨old, hold⟩ := contains_iff.1 h
    simp only [List.mem_map]
    constructor
    · rintro ⟨d, hd, rfl⟩
      by_cases hk : d.1 = key
      · simp [hk]
      · simp [hk, hd]
    · rintro (rfl | ⟨he, hk⟩)
      · exact ⟨_, hold, by simp⟩
      · exact ⟨e, he, by simp [hk]⟩
  · rename_i h
    have hn := not_mem_keys h
    simp only [List.mem_append, List.mem_singleton]
    constructor
    · rintro (he | rfl)
      · exact .inr ⟨he, fun hk => hn (List.mem_map.2 ⟨e, he, hk⟩)⟩
      · exact .inl rfl
    · rintro (rfl | ⟨he, -⟩)
      · exact .inr rfl
      · exact .inl he

theorem find?_insert (t : Table κ ν) (key other : κ) (value : ν) :
    (t.insert key value).find? other = if other = key then some value else t.find? other := by
  apply Option.ext
  intro v
  rw [find?_eq_some_iff, mem_insert]
  by_cases h : other = key
  · simp [h, eq_comm]
  · simp [h, find?_eq_some_iff]

theorem find?_erase (t : Table κ ν) (key other : κ) :
    (t.erase key).find? other = if other = key then none else t.find? other := by
  apply Option.ext
  intro v
  rw [find?_eq_some_iff, mem_erase]
  by_cases h : other = key
  · simp [h]
  · simp [h, find?_eq_some_iff]

end Table

end PeerDma
