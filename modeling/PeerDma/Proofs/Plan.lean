import PeerDma.Proofs.Cursor

/-!
# Plans

`planRuns` succeeds exactly if the page table covers what is to be written, and its runs are then a
cut of the source bytes at page boundaries. A cursor hands the same runs, in the same order, to any
other sink, up to the first that the sink refuses.

* `planRuns_tiles`: when a plan succeeds, and what its runs are.
* `Sink.feed`, `Cursor.drive_eq_feed`: driving a cursor into a sink is planning, then feeding the
  runs of the plan to the sink.
-/

namespace PeerDma

/-! ## The runs of a plan -/

theorem collect_logs : Sink.Logs collect id := fun _ _ => rfl

theorem length_flatMap_bytes (extents : List Extent) :
    (extents.flatMap Extent.bytes).length = (extents.map Extent.length).sum := by
  simp [List.length_flatMap]

theorem Layout.physAt?_eq_none_iff {l : Layout} {position : Nat} (h : 0 < l.pageSize) :
    l.physAt? position = none ↔ l.size ≤ position := by
  rw [← Option.not_isSome_iff_eq_none, Layout.physAt?_isSome_iff h, Nat.not_lt]

/-- A run inside a page ends where the page table does, or before. -/
theorem Run.Fits.stop_le {l : Layout} {r : Run} (h : r.Fits l) (hp : 0 < l.pageSize) :
    r.position + r.length ≤ l.size := by
  have hlt := (Layout.physAt?_isSome_iff hp).1 (Option.isSome_of_eq_some h.target)
  have hin := h.inside
  have hd := Nat.div_add_mod r.position l.pageSize
  have hpage : r.position / l.pageSize + 1 ≤ l.pages.size := Nat.div_lt_of_lt_mul (by
    rw [Nat.mul_comm]
    exact hlt)
  calc r.position + r.length ≤ l.pageSize * (r.position / l.pageSize) + l.pageSize := by omega
    _ = (r.position / l.pageSize + 1) * l.pageSize := by rw [Nat.succ_mul, Nat.mul_comm]
    _ ≤ l.size := Nat.mul_le_mul_right _ hpage

theorem Tiles.eq_or_exists_last {start stop : Nat} {runs : List Run} (h : Tiles start runs stop) :
    start = stop ∨ ∃ r ∈ runs, r.position + r.length = stop := by
  rcases List.eq_nil_or_concat runs with rfl | ⟨rest, r, rfl⟩
  · exact .inl h
  · rw [List.concat_eq_append] at h ⊢
    obtain ⟨middle, -, hpos, -, hstop⟩ := tiles_append.1 h
    simp only [Tiles] at hstop
    exact .inr ⟨r, by simp, by omega⟩

/-- A plan and the cursor that it leaves behind, with nothing pending. -/
theorem planRuns_took {layout : Layout} (start : Nat) (extents : List Extent)
    (hp : 0 < layout.pageSize) :
    ∃ answer runs c, planRuns layout start extents = answer.map (fun _ => runs) ∧
      Cursor.runs c runs.reverse = runs ∧
      Cursor.Took start (extents.flatMap Extent.bytes) ⟨layout, start, none⟩ [] answer c
        runs.reverse := by
  obtain ⟨c, hn, h⟩ := Cursor.took_drive collect_logs extents hp (Cursor.laid_new layout start)
    (Cursor.open_of_none rfl)
  refine ⟨_, ((Cursor.drive collect extents ⟨layout, start, none⟩ []).2).reverse, c, rfl, ?_, ?_⟩
  · simp [Cursor.runs, hn]
  · rw [List.reverse_reverse]
    exact h

/-- The runs collected from extents, as far as the cursor gets: each stays inside a page and reads
bytes of the extents. -/
theorem drive_collect {layout : Layout} {start : Nat} {extents : List Extent}
    (hp : 0 < layout.pageSize) :
    ∀ r ∈ ((Cursor.mk layout start none).drive collect extents []).2,
      r.Fits layout ∧ ∀ b ∈ r.extent.bytes, b ∈ extents.flatMap Extent.bytes := by
  obtain ⟨c, -, h⟩ := Cursor.took_drive collect_logs extents hp (Cursor.laid_new layout start)
    (Cursor.open_of_none rfl)
  generalize (Cursor.mk layout start none).drive collect extents [] = result at h ⊢
  obtain ⟨answer, runs⟩ := result
  have hfits := h.laid.fits
  have htaken := h.taken
  rw [h.layout] at hfits
  simp only [id] at hfits htaken
  intro r hr
  have hmem : r ∈ c.runs runs := by
    simpa [Cursor.runs] using .inl hr
  refine ⟨hfits r hmem, fun b hb => ?_⟩
  have hb' : b ∈ c.taken runs := List.mem_flatMap.2 ⟨r, hmem, hb⟩
  rw [htaken] at hb'
  simp only [Cursor.taken, Cursor.runs, List.reverse_nil, Option.toList_none, List.append_nil,
    List.flatMap_nil, List.nil_append] at hb'
  exact List.mem_of_mem_take hb'

/-- The runs of a plan lie end to end over the destination, each inside a page, and read what the
extents read. -/
theorem planRuns_ok {layout : Layout} {start : Nat} {extents : List Extent} {runs : List Run}
    (hp : 0 < layout.pageSize) (h : planRuns layout start extents = .ok runs) :
    Tiles start runs (start + (extents.map Extent.length).sum) ∧ (∀ r ∈ runs, r.Fits layout) ∧
      runs.flatMap (·.extent.bytes) = extents.flatMap Extent.bytes := by
  obtain ⟨answer, runs', c, hplan, hruns, htook⟩ := planRuns_took start extents hp
  rw [hplan] at h
  cases answer with
  | error stop => cases h
  | ok =>
    obtain rfl : runs' = runs := by simpa [Except.map] using h
    have hall := htook.all rfl
    rw [length_flatMap_bytes] at hall
    have htiles := htook.laid.tiles
    have hfits := htook.laid.fits
    have htaken := htook.taken
    rw [hruns] at htiles hfits
    rw [htook.layout] at hfits
    refine ⟨hall ▸ htiles, hfits, ?_⟩
    rw [Cursor.taken, hruns, hall, Nat.add_sub_cancel_left, ← length_flatMap_bytes,
      List.take_length] at htaken
    simpa [Cursor.taken, Cursor.runs] using htaken

/-- A plan stops only at a position outside the page table, in front of a byte. -/
theorem planRuns_error {layout : Layout} {start : Nat} {extents : List Extent} {stop : Stop Empty}
    (hp : 0 < layout.pageSize) (h : planRuns layout start extents = .error stop) :
    ∃ position, stop = .outside position ∧ start ≤ position ∧
      position < start + (extents.map Extent.length).sum ∧ layout.size ≤ position := by
  obtain ⟨answer, runs', c, hplan, hruns, htook⟩ := planRuns_took start extents hp
  rw [hplan] at h
  cases answer with
  | ok => cases h
  | error stop' =>
    obtain rfl : stop' = stop := by simpa [Except.map] using h
    cases stop' with
    | refused reason => exact reason.elim
    | outside position =>
      obtain ⟨hpos, hlt, hnone⟩ := htook.outside position rfl
      rw [length_flatMap_bytes] at hlt
      exact ⟨position, rfl, hpos ▸ htook.le.1, hlt, (Layout.physAt?_eq_none_iff hp).1 hnone⟩

/-- A plan succeeds exactly if there is nothing to write or the page table covers it. -/
theorem planRuns_isOk_iff {layout : Layout} (hp : 0 < layout.pageSize) (start : Nat)
    (extents : List Extent) :
    (∃ runs, planRuns layout start extents = .ok runs) ↔
      (extents.map Extent.length).sum = 0 ∨
        start + (extents.map Extent.length).sum ≤ layout.size := by
  constructor
  · rintro ⟨runs, h⟩
    obtain ⟨htiles, hfits, -⟩ := planRuns_ok hp h
    rcases htiles.eq_or_exists_last with he | ⟨r, hr, hstop⟩
    · exact .inl (by omega)
    · exact .inr (hstop ▸ (hfits r hr).stop_le hp)
  · intro h
    cases hplan : planRuns layout start extents with
    | ok runs => exact ⟨runs, rfl⟩
    | error stop =>
      obtain ⟨position, -, h1, h2, h3⟩ := planRuns_error hp hplan
      omega

theorem Tiles.length_pos {start stop : Nat} {runs : List Run} (h : Tiles start runs stop) :
    ∀ r ∈ runs, 0 < r.length := by
  induction runs generalizing start with
  | nil => simp
  | cons r rest ih =>
    obtain ⟨-, hpos, htail⟩ := h
    rintro r' (_ | ⟨_, hr'⟩)
    · exact hpos
    · exact ih htail r' hr'

/-- **The planner.** A plan succeeds exactly if there is nothing to write or the page table covers
it, and else reports a bad argument. Its runs lie end to end over the destination. None is empty,
each stays inside a device page, whatever page comes next, and starts at the physical address of
its position. Byte by byte they read what the extents read. -/
theorem planRuns_tiles {layout : Layout} (hp : 0 < layout.pageSize) (start : Nat)
    (extents : List Extent) :
    ((∃ runs, planRuns layout start extents = .ok runs) ↔
        (extents.map Extent.length).sum = 0 ∨
          start + (extents.map Extent.length).sum ≤ layout.size) ∧
      (∀ stop, planRuns layout start extents = .error stop →
        stop.error Empty.elim = .invalidArgument) ∧
      ∀ runs, planRuns layout start extents = .ok runs →
        Tiles start runs (start + (extents.map Extent.length).sum) ∧
        (∀ r ∈ runs, 0 < r.length ∧ r.position % layout.pageSize + r.length ≤ layout.pageSize ∧
          layout.physAt? r.position = some r.target) ∧
        runs.flatMap (·.extent.bytes) = extents.flatMap Extent.bytes := by
  refine ⟨planRuns_isOk_iff hp start extents, ?_, ?_⟩
  · intro stop h
    obtain ⟨position, rfl, -⟩ := planRuns_error hp h
    rfl
  · intro runs h
    obtain ⟨htiles, hfits, hbytes⟩ := planRuns_ok hp h
    exact ⟨htiles, fun r hr => ⟨htiles.length_pos r hr, (hfits r hr).inside, (hfits r hr).target⟩,
      hbytes⟩

/-- An extent that crosses into the next page is cut there, although the pages are neighbours. -/
theorem planRuns_tiles_neighbours :
    0 < (Layout.mk 4 #[⟨100⟩, ⟨104⟩]).pageSize ∧
      ∃ runs, planRuns ⟨4, #[⟨100⟩, ⟨104⟩]⟩ 2 [⟨.memory, 10, 3⟩, ⟨.memory, 13, 1⟩] = .ok runs ∧
        Tiles 2 runs 6 ∧ (∀ r ∈ runs, r.position % 4 + r.length ≤ 4) ∧
        runs.flatMap (·.extent.bytes) =
          [(.memory, 10), (.memory, 11), (.memory, 12), (.memory, 13)] := by
  have hp : 0 < (Layout.mk 4 #[⟨100⟩, ⟨104⟩]).pageSize := by decide
  obtain ⟨hok, -, hruns⟩ := planRuns_tiles hp 2 [⟨.memory, 10, 3⟩, ⟨.memory, 13, 1⟩]
  obtain ⟨runs, h⟩ := hok.2 (.inr (by decide))
  obtain ⟨htiles, hin, hbytes⟩ := hruns runs h
  exact ⟨hp, runs, h, htiles, fun r hr => (hin r hr).2.1, hbytes⟩

example : planRuns ⟨4, #[⟨100⟩, ⟨104⟩]⟩ 2 [⟨.memory, 10, 3⟩, ⟨.memory, 13, 1⟩] =
    .ok [⟨.memory, 10, ⟨102⟩, 2, 2⟩, ⟨.memory, 12, ⟨104⟩, 4, 2⟩] := by cbv

/-! ## Plans and sinks -/

section

variable {ρ σ : Type} (sink : Sink ρ σ)

/-- Hands runs over until one is refused. -/
def Sink.feed : List Run → σ → Except ρ Unit × σ
  | [], s => (.ok (), s)
  | run :: rest, s =>
    match sink run s with
    | (.error reason, s) => (.error reason, s)
    | (.ok (), s) => feed rest s

theorem Sink.feed_append (xs ys : List Run) (s : σ) :
    Sink.feed sink (xs ++ ys) s =
      match Sink.feed sink xs s with
      | (.error reason, s) => (.error reason, s)
      | (.ok (), s) => Sink.feed sink ys s := by
  induction xs generalizing s with
  | nil => rfl
  | cons run rest ih =>
    simp only [List.cons_append, Sink.feed]
    split
    · rfl
    · exact ih _

/-- The stop of a cursor whose sink refuses nothing. -/
def Stop.ofEmpty : Stop Empty → Stop ρ
  | refused reason => reason.elim
  | outside position => .outside position

namespace Cursor

/-- Two steps of a cursor, the second of which is left out if the first one stops. -/
def andThen (first : Except (Stop ρ) Unit × Cursor × σ)
    (next : Cursor → σ → Except (Stop ρ) Unit × Cursor × σ) :
    Except (Stop ρ) Unit × Cursor × σ :=
  match first.1 with
  | .error stop => (.error stop, first.2)
  | .ok () => next first.2.1 first.2.2

theorem advance_eq (channel : Channel) (source length : Nat) (c : Cursor) (s : σ) :
    c.advance sink channel source length s =
      andThen (c.cutBefore sink channel source s) fun c s =>
        match c.place channel source length with
        | .error stop => (.error stop, c, s)
        | .ok c => c.cutAtBoundary sink s := by
  unfold advance andThen
  rcases c.cutBefore sink channel source s with ⟨_ | _, c, s⟩ <;> rfl

theorem advanceAll_eq {length : Nat} {c : Cursor} (h : ¬(c.layout.pageSize = 0 ∨ length = 0))
    (channel : Channel) (source : Nat) (s : σ) :
    c.advanceAll sink channel source length s =
      andThen (c.advance sink channel source
          (Span.first c.layout.pageSize c.position length).length s)
        fun c' s => c'.advanceAll sink channel
          (source + (Span.first c.layout.pageSize c.position length).length)
          (length - (Span.first c.layout.pageSize c.position length).length) s := by
  rw [advanceAll, dif_neg h]
  unfold andThen
  dsimp only
  rcases c.advance sink channel source _ s with ⟨_ | _, c', s'⟩ <;> rfl

theorem pushAll_cons (e : Extent) (rest : List Extent) (c : Cursor) (s : σ) :
    c.pushAll sink (e :: rest) s =
      andThen (c.push sink e s) fun c s => c.pushAll sink rest s := by
  unfold andThen
  rw [pushAll]
  rcases c.push sink e s with ⟨_ | _, c, s⟩ <;> rfl

theorem drive_eq (extents : List Extent) (c : Cursor) (s : σ) :
    c.drive sink extents s =
      ((andThen (c.pushAll sink extents s) fun c s => c.flush sink s).1,
        (andThen (c.pushAll sink extents s) fun c s => c.flush sink s).2.2) := by
  unfold drive andThen
  rcases c.pushAll sink extents s with ⟨_ | _, c, s⟩ <;> rfl

variable {sink}

/-- What a cursor does with a sink, against what it does when it only collects `runs`: the sink is
fed the runs collected on the way, and once it refuses one the cursor stops. -/
def Follows (sink : Sink ρ σ) (runs : List Run) (s : σ)
    (collected : Except (Stop Empty) Unit × Cursor × List Run)
    (streamed : Except (Stop ρ) Unit × Cursor × σ) : Prop :=
  ∃ more, collected.2.2 = more ++ runs ∧
    match Sink.feed sink more.reverse s with
    | (.ok (), s') => streamed = (collected.1.mapError .ofEmpty, collected.2.1, s')
    | (.error reason, s') => streamed.1 = .error (.refused reason) ∧ streamed.2.2 = s'

theorem Follows.refl (c : Cursor) (runs : List Run) (s : σ) :
    Follows sink runs s (.ok (), c, runs) (.ok (), c, s) :=
  ⟨[], rfl, rfl⟩

theorem Follows.andThen {runs : List Run} {s : σ}
    {collected : Except (Stop Empty) Unit × Cursor × List Run}
    {streamed : Except (Stop ρ) Unit × Cursor × σ}
    {next : Cursor → List Run → Except (Stop Empty) Unit × Cursor × List Run}
    {next' : Cursor → σ → Except (Stop ρ) Unit × Cursor × σ}
    (h : Follows sink runs s collected streamed)
    (hn : ∀ c runs s, Follows sink runs s (next c runs) (next' c s)) :
    Follows sink runs s (Cursor.andThen collected next) (Cursor.andThen streamed next') := by
  obtain ⟨more, hmore, hfeed⟩ := h
  obtain ⟨answer, c, runs'⟩ := collected
  obtain ⟨answer', c', s'⟩ := streamed
  obtain rfl : runs' = more ++ runs := hmore
  rcases hs : Sink.feed sink more.reverse s with ⟨reason | _, s₁⟩ <;> rw [hs] at hfeed
  -- The sink has refused a run of the first step; what else is collected makes no difference.
  · obtain ⟨rfl, rfl⟩ : answer' = .error (.refused reason) ∧ s' = s₁ := hfeed
    cases answer with
    | error stop => exact ⟨more, rfl, by rw [hs]; exact ⟨rfl, rfl⟩⟩
    | ok =>
      obtain ⟨more', hmore', -⟩ := hn c (more ++ runs) s'
      refine ⟨more' ++ more, by rw [List.append_assoc]; exact hmore', ?_⟩
      rw [List.reverse_append, Sink.feed_append, hs]
      exact ⟨rfl, rfl⟩
  · obtain ⟨rfl, rfl, rfl⟩ : answer' = answer.mapError .ofEmpty ∧ c' = c ∧ s' = s₁ := by
      simpa using hfeed
    cases answer with
    | error stop => exact ⟨more, rfl, by rw [hs]; rfl⟩
    | ok =>
      obtain ⟨more', hmore', hfeed'⟩ := hn c' (more ++ runs) s'
      refine ⟨more' ++ more, by rw [List.append_assoc]; exact hmore', ?_⟩
      rw [List.reverse_append, Sink.feed_append, hs]
      exact hfeed'

theorem flush_follows (c : Cursor) (runs : List Run) (s : σ) :
    Follows sink runs s (c.flush collect runs) (c.flush sink s) := by
  unfold flush
  cases c.pending with
  | none => exact .refl c runs s
  | some run =>
    refine ⟨[run], rfl, ?_⟩
    rcases h : sink run s with ⟨reason | _, s'⟩
    · have hfeed : Sink.feed sink [run].reverse s = (.error reason, s') := by simp [Sink.feed, h]
      rw [hfeed]
      dsimp only
      rw [h]
      exact ⟨rfl, rfl⟩
    · have hfeed : Sink.feed sink [run].reverse s = (.ok (), s') := by simp [Sink.feed, h]
      rw [hfeed]
      dsimp only
      rw [h]
      rfl

theorem cutBefore_follows (channel : Channel) (source : Nat) (c : Cursor) (runs : List Run)
    (s : σ) :
    Follows sink runs s (c.cutBefore collect channel source runs)
      (c.cutBefore sink channel source s) := by
  unfold cutBefore
  cases c.pending with
  | none => exact .refl c runs s
  | some run =>
    dsimp only
    split
    · exact .refl c runs s
    · exact flush_follows c runs s

theorem cutAtBoundary_follows (c : Cursor) (runs : List Run) (s : σ) :
    Follows sink runs s (c.cutAtBoundary collect runs) (c.cutAtBoundary sink s) := by
  unfold cutAtBoundary
  split
  · exact flush_follows c runs s
  · exact .refl c runs s

theorem advance_follows (channel : Channel) (source length : Nat) (c : Cursor) (runs : List Run)
    (s : σ) :
    Follows sink runs s (c.advance collect channel source length runs)
      (c.advance sink channel source length s) := by
  rw [advance_eq, advance_eq]
  refine (cutBefore_follows channel source c runs s).andThen fun c runs s => ?_
  unfold place
  cases c.pending with
  | some run => exact cutAtBoundary_follows _ runs s
  | none =>
    dsimp only
    cases c.layout.physAt? c.position with
    | some target => exact cutAtBoundary_follows _ runs s
    | none => exact ⟨[], rfl, rfl⟩

theorem advanceAll_follows (channel : Channel) (source length : Nat) (c : Cursor)
    (runs : List Run) (s : σ) :
    Follows sink runs s (c.advanceAll collect channel source length runs)
      (c.advanceAll sink channel source length s) := by
  induction length using Nat.strongRecOn generalizing c runs s source with
  | ind length ih =>
    by_cases h : c.layout.pageSize = 0 ∨ length = 0
    · rw [advanceAll, advanceAll, dif_pos h, dif_pos h]
      exact .refl c runs s
    · have hpos := Span.first_length_pos c.position h
      rw [advanceAll_eq _ h, advanceAll_eq _ h]
      refine (advance_follows channel source _ c runs s).andThen fun c' runs s => ?_
      exact ih _ (by omega) _ c' runs s

theorem pushAll_follows (extents : List Extent) (c : Cursor) (runs : List Run) (s : σ) :
    Follows sink runs s (c.pushAll collect extents runs) (c.pushAll sink extents s) := by
  induction extents generalizing c runs s with
  | nil => exact .refl c runs s
  | cons e rest ih =>
    rw [pushAll_cons, pushAll_cons]
    exact (advanceAll_follows _ _ _ c runs s).andThen ih

/-- **Streaming is planning.** Driving a cursor into a sink hands it the runs that the cursor
would collect, in order, up to the first that the sink refuses; if it refuses none, the cursor
answers as it would when it collects them. -/
theorem drive_eq_feed (extents : List Extent) (c : Cursor) (s : σ) :
    c.drive sink extents s =
      match Sink.feed sink (c.drive collect extents []).2.reverse s with
      | (.error reason, s) => (.error (.refused reason), s)
      | (.ok (), s) => ((c.drive collect extents []).1.mapError .ofEmpty, s) := by
  have hpush : Follows sink [] s _ _ := pushAll_follows extents c [] s
  obtain ⟨more, hmore, hfeed⟩ := hpush.andThen fun c runs s => flush_follows c runs s
  rw [drive_eq, drive_eq]
  rw [List.append_nil] at hmore
  dsimp only
  rw [hmore]
  rcases hs : Sink.feed sink more.reverse s with ⟨reason | _, s₁⟩ <;> rw [hs] at hfeed
  · exact Prod.ext hfeed.1 hfeed.2
  · rw [hfeed]

end Cursor

/-- A cursor at the start of a range feeds the runs of a plan to its sink. -/
theorem drive_of_planRuns {layout : Layout} {start : Nat} {extents : List Extent}
    {runs : List Run} (h : planRuns layout start extents = .ok runs) (s : σ) :
    (Cursor.mk layout start none).drive sink extents s =
      ((Sink.feed sink runs s).1.mapError .refused, (Sink.feed sink runs s).2) := by
  rw [Cursor.drive_eq_feed]
  unfold planRuns at h
  generalize (Cursor.mk layout start none).drive collect extents [] = r at h
  obtain ⟨_ | _, collected⟩ := r
  · cases h
  · obtain rfl : collected.reverse = runs := by simpa [Except.map] using h
    dsimp only
    rcases Sink.feed sink collected.reverse s with ⟨_ | _, s'⟩ <;> rfl

end

end PeerDma
