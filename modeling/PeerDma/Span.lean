/-!
# Spans

A byte range is cut at the multiples of a page size into spans, each inside one page. The same
cut serves host pages, file pages and device pages.

* `spans_of_pos`, `spans_length_pos`: the spans of a range, one by one; none of them is empty.
-/

namespace PeerDma

/-- A range inside one page. -/
structure Span where
  /-- Which page. -/
  index : Nat
  /-- Where the span starts in the page. -/
  within : Nat
  /-- Bytes. -/
  length : Nat
  deriving DecidableEq, Repr

/-- The first span of `[start, start + length)`, for pages of `page` bytes. -/
def Span.first (page start length : Nat) : Span :=
  ⟨start / page, start % page, min (page - start % page) length⟩

theorem Span.first_length_pos {page length : Nat} (start : Nat)
    (h : ¬(page = 0 ∨ length = 0)) : 0 < (first page start length).length := by
  have := Nat.mod_lt start (Nat.pos_of_ne_zero fun e => h (.inl e))
  simp only [first]
  omega

theorem Span.first_length_le (page start length : Nat) :
    (first page start length).length ≤ length := Nat.min_le_right ..

/-- The spans of `[start, start + length)`, in order, for pages of `page` bytes. -/
def spans (page start length : Nat) : List Span :=
  if h : page = 0 ∨ length = 0 then []
  else
    let span := Span.first page start length
    have := Span.first_length_pos start h
    span :: spans page (start + span.length) (length - span.length)
termination_by length

@[simp] theorem spans_zero (page start : Nat) : spans page start 0 = [] := by
  rw [spans]; simp

/-- The first span of a range that is not empty, and the spans of the rest. -/
theorem spans_of_pos {page length : Nat} (start : Nat) (hp : 0 < page) (hl : 0 < length) :
    spans page start length =
      Span.first page start length ::
        spans page (start + (Span.first page start length).length)
          (length - (Span.first page start length).length) := by
  rw [spans, dif_neg (by omega)]

theorem spans_length_pos {page start length : Nat} :
    ∀ s ∈ spans page start length, 0 < s.length := by
  fun_induction spans page start length with
  | case1 => simp
  | case2 start length _ span hpos ih =>
    intro s hs
    rcases List.mem_cons.1 hs with rfl | hs
    · exact hpos
    · exact ih s hs

end PeerDma
