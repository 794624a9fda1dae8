import Mathlib.Algebra.Ring.Nat
import PeerDma.Span
import PeerDma.Word

/-!
# Bytes and their pages

Byte `k` of a range from `start` lies on page `(start + k) / page`, `(start + k) % page` bytes into
it. The spans of a range visit its pages one by one, each once.

* `Word.alignDown_eq`: the mask that rounds an address down is exact.
* `sum_length_spans`: the spans of a range add up to it.
* `pageCount`, `length_spans`: how many pages a range touches.
* `spans_eq_map`: the spans of a range by the numbers of its pages.
* `zipWith_spans`: what a walk over the spans of a range, with something at hand for each page,
  yields byte by byte.
-/

namespace PeerDma

/-! ## Masks -/

namespace Word

theorem isPowerOfTwo_iff {n : Nat} : isPowerOfTwo n ↔ ∃ k, n = 2 ^ k := by
  unfold isPowerOfTwo
  rw [beq_iff_eq, Nat.one_shiftLeft]
  constructor
  · intro h
    exact ⟨_, h.symm⟩
  · rintro ⟨k, rfl⟩
    rw [Nat.log2_two_pow]

theorem isPowerOfTwo_pos {n : Nat} (h : isPowerOfTwo n) : 0 < n := by
  obtain ⟨k, rfl⟩ := isPowerOfTwo_iff.1 h
  exact Nat.two_pow_pos k

theorem bound_le {k : Nat} (hk : 64 ≤ k) : bound ≤ 2 ^ k :=
  (Nat.pow_le_pow_right Nat.two_pos hk : 2 ^ 64 ≤ 2 ^ k)

/-- The high bits of a word, as a mask. -/
private theorem testBit_bound_sub {k : Nat} (hk : k ≤ 64) (i : Nat) :
    (bound - 2 ^ k).testBit i = (decide (k ≤ i) && decide (i < 64)) := by
  have he : bound - 2 ^ k = (2 ^ (64 - k) - 1) <<< k := by
    rw [Nat.shiftLeft_eq, Nat.sub_mul, Nat.one_mul, ← Nat.pow_add, Nat.sub_add_cancel hk]
    rfl
  rw [he, Nat.testBit_shiftLeft, Nat.testBit_two_pow_sub_one]
  by_cases h : k ≤ i
  · simp only [ge_iff_le, h, decide_true, Bool.true_and, decide_eq_decide]
    omega
  · simp [h]

/-- Rounding down to a power of two takes the remainder off. -/
theorem alignDown_eq {a align : Nat} (ha : a < bound) (h : isPowerOfTwo align) :
    alignDown a align = a - a % align := by
  obtain ⟨k, rfl⟩ := isPowerOfTwo_iff.1 h
  unfold alignDown
  by_cases hk : k ≤ 64
  · have hsub : a - a % 2 ^ k = (a >>> k) <<< k := by
      have := Nat.div_add_mod a (2 ^ k)
      rw [Nat.shiftRight_eq_div_pow, Nat.shiftLeft_eq, Nat.mul_comm]
      omega
    rw [hsub]
    apply Nat.eq_of_testBit_eq
    intro i
    rw [Nat.testBit_and, testBit_bound_sub hk, Nat.testBit_shiftLeft, Nat.testBit_shiftRight]
    by_cases hi : k ≤ i
    · by_cases hw : i < 64
      · simp [hi, hw]
      · have hbit : a.testBit i = false :=
          Nat.testBit_lt_two_pow (Nat.lt_of_lt_of_le ha (bound_le (by omega)))
        simp [hi, hw, hbit]
    · simp [hi]
  · -- No word reaches so large an alignment.
    have hle : bound ≤ 2 ^ k := bound_le (by omega)
    rw [Nat.sub_eq_zero_of_le hle, Nat.and_zero, Nat.mod_eq_of_lt (by omega), Nat.sub_self]

end Word

/-! ## Pages of a range -/

/-- A byte that does not leave the page is at the sum of the offsets. -/
theorem mod_add_of_lt {a k page : Nat} (h : a % page + k < page) :
    (a + k) % page = a % page + k := by
  rw [← Nat.mod_add_mod, Nat.mod_eq_of_lt h]

theorem div_add_of_lt {a k page : Nat} (h : a % page + k < page) :
    (a + k) / page = a / page := by
  have hd := Nat.div_add_mod a page
  rw [show a + k = (a % page + k) + page * (a / page) by omega,
    Nat.add_mul_div_left _ _ (by omega), Nat.div_eq_of_lt h, Nat.zero_add]

theorem Span.first_within {page : Nat} (hp : 0 < page) (start length : Nat) :
    start % page + (first page start length).length ≤ page := by
  have := Nat.mod_lt start hp
  simp only [first]
  omega

/-- How many pages `[start, start + length)` touches. -/
def pageCount (page start length : Nat) : Nat := (start + length - 1) / page + 1 - start / page

theorem pageCount_eq_ceilDiv {page start length : Nat} (hp : 0 < page) (hl : 0 < length) :
    Word.ceilDiv (start + length - (start - start % page)) page = pageCount page start length := by
  have hd := Nat.div_add_mod start page
  have hle := Nat.mod_le start page
  have h₁ : start + length - (start - start % page) + page - 1 =
      (start % page + length - 1) + page := by omega
  have h₂ : start + length - 1 = (start % page + length - 1) + page * (start / page) := by omega
  unfold Word.ceilDiv pageCount
  rw [h₁, h₂, Nat.add_div_right _ hp, Nat.add_mul_div_left _ _ hp]
  generalize (start % page + length - 1) / page = q
  generalize start / page = r
  omega

/-- Behind the first span of a range begins the next page. -/
theorem Span.first_next {page start length : Nat} (hp : 0 < page)
    (h : (first page start length).length < length) :
    start + (first page start length).length = (start / page + 1) * page := by
  have hd := Nat.div_add_mod start page
  have hm := Nat.mod_lt start hp
  simp only [first] at h ⊢
  rw [Nat.succ_mul, Nat.mul_comm (start / page)]
  omega

theorem sum_length_spans {page : Nat} (hp : 0 < page) (start length : Nat) :
    ((spans page start length).map Span.length).sum = length := by
  fun_induction spans page start length with
  | case1 _ _ h => rcases h with h | h <;> simp_all
  | case2 start length _ span hpos ih =>
    have hle : span.length ≤ length := Span.first_length_le ..
    simp only [List.map_cons, List.sum_cons, ih]
    omega

theorem length_spans {page : Nat} (hp : 0 < page) (start : Nat) {length : Nat} (hl : 0 < length) :
    (spans page start length).length = pageCount page start length := by
  induction length using Nat.strongRecOn generalizing start with
  | ind length ih =>
    have hpos : 0 < (Span.first page start length).length := Span.first_length_pos start (by omega)
    have hle := Span.first_length_le page start length
    have hnext : (Span.first page start length).length < length → _ := Span.first_next hp
    have hwithin := Span.first_within hp start length
    rw [spans_of_pos start hp hl, List.length_cons]
    generalize (Span.first page start length).length = size at hpos hle hnext hwithin ⊢
    rcases Nat.lt_or_eq_of_le hle with hlt | rfl
    · rw [ih (length - size) (by omega) (start + size) (by omega), hnext hlt]
      unfold pageCount
      have hend : (start / page + 1) * page + (length - size) - 1 = start + length - 1 := by
        have := hnext hlt
        omega
      rw [hend, Nat.mul_div_cancel _ hp]
      have : start / page + 1 ≤ (start + length - 1) / page := by
        rw [Nat.le_div_iff_mul_le hp, ← hnext hlt]
        omega
      omega
    · have hlast : (start + size - 1) / page = start / page := by
        rw [Nat.add_sub_assoc hpos, div_add_of_lt (by omega)]
      rw [Nat.sub_self, spans_zero, pageCount, hlast]
      simp

/-! ## Spans by their pages -/

/-- What lies of `[start, start + length)` on a page. -/
def Span.onPage (page start length index : Nat) : Span :=
  let position := max start (index * page)
  ⟨index, position % page, min (start + length) ((index + 1) * page) - position⟩

theorem Span.onPage_first {page : Nat} (hp : 0 < page) (start length : Nat) :
    onPage page start length (start / page) = first page start length := by
  have hd := Nat.div_add_mod start page
  have hm := Nat.mod_lt start hp
  have hmax : max start (start / page * page) = start := by
    rw [Nat.mul_comm]
    omega
  simp only [onPage, first, hmax, Span.mk.injEq, true_and]
  rw [Nat.succ_mul, Nat.mul_comm]
  omega

theorem spans_eq_map {page : Nat} (hp : 0 < page) (start : Nat) {length : Nat} (hl : 0 < length) :
    spans page start length =
      (List.range' (start / page) (pageCount page start length)).map
        (Span.onPage page start length) := by
  induction length using Nat.strongRecOn generalizing start with
  | ind length ih =>
    have hcount : 0 < pageCount page start length := by
      rw [← length_spans hp start hl, spans_of_pos start hp hl]
      exact Nat.succ_pos _
    have hlength := length_spans hp start hl
    have hpos : 0 < (Span.first page start length).length := Span.first_length_pos start (by omega)
    have hle := Span.first_length_le page start length
    have hnext : (Span.first page start length).length < length → _ := Span.first_next hp
    rw [spans_of_pos start hp hl] at hlength ⊢
    obtain ⟨count, hcount⟩ := Nat.exists_eq_succ_of_ne_zero (Nat.ne_of_gt hcount)
    rw [hcount, List.range'_succ, List.map_cons, Span.onPage_first hp]
    rw [hcount, List.length_cons, Nat.succ.injEq] at hlength
    congr 1
    generalize (Span.first page start length).length = size at hpos hle hnext hlength ⊢
    rcases Nat.lt_or_eq_of_le hle with hlt | rfl
    -- What follows lies on pages further on, where it makes no difference what came before.
    · have hstart := hnext hlt
      have hfirst : (start + size) / page = start / page + 1 := by
        rw [hstart, Nat.mul_div_cancel _ hp]
      rw [ih (length - size) (by omega) (start + size) (by omega), hfirst]
      rw [length_spans hp _ (by omega)] at hlength
      rw [hlength]
      refine List.map_congr_left fun index hindex => ?_
      have hge : (start / page + 1) * page ≤ index * page :=
        Nat.mul_le_mul_right _ (List.mem_range'_1.1 hindex).1
      have hmax : max (start + size) (index * page) = max start (index * page) := by omega
      have hend : start + size + (length - size) = start + length := by omega
      simp only [Span.onPage, hmax, hend]
    · rw [Nat.sub_self, spans_zero] at hlength ⊢
      rw [← hlength]
      rfl

theorem map_index_spans {page : Nat} (hp : 0 < page) (start : Nat) {length : Nat}
    (hl : 0 < length) : (spans page start length).map Span.index =
      List.range' (start / page) (pageCount page start length) := by
  rw [spans_eq_map hp start hl, List.map_map]
  exact List.map_id _

/-! ## Walks -/

/-- A walk over one list has no use for more items of the other. -/
theorem zipWith_take_length {α β γ : Type} (f : α → β → γ) (xs : List α) (ys : List β) :
    List.zipWith f xs (ys.take xs.length) = List.zipWith f xs ys := by
  induction xs generalizing ys with
  | nil => rfl
  | cons x rest ih => cases ys <;> simp [ih]

/-- A walk over the spans of a range, with one item at hand for each page, meets byte by byte the
item of the byte's page. -/
theorem zipWith_spans {α β : Type} (f : α → Nat → β) {page : Nat} (hp : 0 < page) (start : Nat)
    {length : Nat} {items : List α} (h : items.length = (spans page start length).length) :
    (List.zipWith (fun (s : Span) x => (List.range s.length).map fun k => f x (s.within + k))
        (spans page start length) items).flatten.map some =
      (List.range length).map fun k =>
        (items[(start + k) / page - start / page]?).map fun x => f x ((start + k) % page) := by
  induction length using Nat.strongRecOn generalizing start items with
  | ind length ih =>
    rcases Nat.eq_zero_or_pos length with rfl | hl
    · simp
    have hpos : 0 < (Span.first page start length).length := Span.first_length_pos start (by omega)
    have hle := Span.first_length_le page start length
    have hnext : (Span.first page start length).length < length → _ := Span.first_next hp
    have hwithin := Span.first_within hp start length
    have hw : (Span.first page start length).within = start % page := rfl
    rw [spans_of_pos start hp hl] at h ⊢
    generalize Span.first page start length = s at h hpos hle hnext hwithin hw ⊢
    cases items with
    | nil => simp at h
    | cons x rest =>
      have hrest : rest.length = (spans page (start + s.length) (length - s.length)).length := by
        simpa using h
      rw [List.zipWith_cons_cons, List.flatten_cons, List.map_append,
        ih (length - s.length) (by omega) (start + s.length) hrest]
      have hsplit : List.range length =
          List.range s.length ++ (List.range (length - s.length)).map (s.length + ·) := by
        rw [← List.range_add, Nat.add_sub_of_le hle]
      rw [hsplit, List.map_append, List.map_map, List.map_map]
      congr 1
      -- The first span lies on the first page.
      · apply List.map_congr_left
        intro k hk
        have hin : start % page + k < page := by
          have := List.mem_range.1 hk
          omega
        simp [div_add_of_lt hin, mod_add_of_lt hin, hw]
      -- What follows starts on the next page, one item further on.
      · apply List.map_congr_left
        intro k hk
        have hlt : s.length < length := by
          have := List.mem_range.1 hk
          omega
        have hstart := hnext hlt
        have hge : start / page + 1 ≤ (start + s.length + k) / page := by
          rw [Nat.le_div_iff_mul_le hp, hstart]
          omega
        have hfirst : (start + s.length) / page = start / page + 1 := by
          rw [hstart, Nat.mul_div_cancel _ hp]
        have hindex : (start + s.length + k) / page - start / page =
            (start + s.length + k) / page - (start + s.length) / page + 1 := by omega
        simp only [Function.comp_apply, ← Nat.add_assoc, hindex, List.getElem?_cons_succ]

end PeerDma
