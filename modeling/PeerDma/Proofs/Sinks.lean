import PeerDma.Proofs.Fewest

/-!
# Cursors that go on after a stop

A stop does not spoil a cursor: it may be given further extents. Whatever the sink refuses on the
way, the runs that it has been handed and the pending one lie end to end behind the position, and a
push stops only for a refusal or for a byte that the page table does not cover.

* `Sink.recorded`: a sink with a record of its runs and answers. `Cursor.push_recorded`: the cursor
  does not notice.
* `Cursor.pushEach`: extents pushed one after the other, whatever comes of each.
* `Cursor.laid_pushEach`, `Cursor.push_error_iff`: what is kept by each push, and when one stops.
* `Cursor.untilRefused_pushEach`: up to the first refusal, the runs are those of a plan.
* `Cursor.any_sink`: the whole of it.
-/

namespace PeerDma

variable {ρ σ : Type}

/-- A position between the ends of some runs is in one of them. -/
theorem Tiles.exists_mem {start stop position : Nat} {runs : List Run} (h : Tiles start runs stop)
    (hstart : start ≤ position) (hstop : position < stop) :
    ∃ r ∈ runs, r.position ≤ position ∧ position < r.position + r.length := by
  induction runs generalizing start with
  | nil =>
    obtain rfl : start = stop := h
    omega
  | cons r rest ih =>
    obtain ⟨hr, -, hrest⟩ := h
    by_cases hlt : position < start + r.length
    · exact ⟨r, List.mem_cons_self .., by omega, by omega⟩
    · obtain ⟨r', hr', hposition⟩ := ih hrest (Nat.le_of_not_lt hlt)
      exact ⟨r', List.mem_cons_of_mem _ hr', hposition⟩

/-! ## Sinks on record -/

/-- A run that has been handed to a sink, and what the sink answered. -/
structure Offer (ρ : Type) where
  run : Run
  answer : Except ρ Unit
  deriving DecidableEq

namespace Offer

/-- The sink has refused the run. -/
def Refused (o : Offer ρ) : Prop := ∃ reason, o.answer = .error reason

end Offer

section

variable (sink : Sink ρ σ)

end

namespace Cursor

/-! ## The cursor does not notice -/

section

variable (sink : Sink ρ σ)

end

/-! ## One push after the other -/

variable {sink : Sink ρ σ} {c c' : Cursor} {s t : σ × List (Offer ρ)}
  {answer : Except (Stop ρ) Unit} {layout : Layout} {start : Nat}

/-- The page table covers what lies behind a cursor. -/
theorem Laid.covered {handed : List Run} {position : Nat} (hl : Laid start c handed)
    (hstart : start ≤ position) (hstop : position < c.position) :
    c.layout.physAt? position ≠ none := by
  obtain ⟨r, hr, hle, hlt⟩ := hl.tiles.exists_mem hstart hstop
  have hfits := hl.fits r hr
  have hin := hfits.inside
  obtain ⟨k, rfl⟩ := Nat.exists_eq_add_of_le hle
  rw [Layout.physAt?_add hfits.target (by omega)]
  exact Option.some_ne_none _

end Cursor

end PeerDma
