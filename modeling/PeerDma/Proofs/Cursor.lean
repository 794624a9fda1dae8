import PeerDma.Proofs.Pages
import PeerDma.Run

/-!
# What a cursor hands over

The runs that a cursor has handed to its sink, taken or refused, and the pending one lie end to end
behind its position, each inside one page of the layout, and they read the bytes of the extents
that it took. This holds for every sink, also after a stop.

* `Cursor.Laid`: the property, which every operation keeps.
* `Took`: what taking an extent does to a cursor, as far as it gets; `Cursor.took_push` and
  `Cursor.took_pushAll` say so of one extent and of a list of extents.
-/

namespace PeerDma

/-! ## Extents and runs -/

/-- The source of a run. -/
def Run.extent (r : Run) : Extent := ⟨r.channel, r.source, r.length⟩

theorem Extent.bytes_append (channel : Channel) (source a b : Nat) :
    Extent.bytes ⟨channel, source, a⟩ ++ Extent.bytes ⟨channel, source + a, b⟩ =
      Extent.bytes ⟨channel, source, a + b⟩ := by
  simp only [Extent.bytes, ← List.map_append, List.range'_append_1]

@[simp] theorem Extent.length_bytes (e : Extent) : e.bytes.length = e.length := by
  simp [Extent.bytes]

/-- The runs lie end to end between two positions, and none is empty. -/
def Tiles (start : Nat) : List Run → Nat → Prop
  | [], stop => start = stop
  | r :: rest, stop => r.position = start ∧ 0 < r.length ∧ Tiles (start + r.length) rest stop

theorem tiles_append {start stop : Nat} {xs ys : List Run} :
    Tiles start (xs ++ ys) stop ↔ ∃ middle, Tiles start xs middle ∧ Tiles middle ys stop := by
  induction xs generalizing start with
  | nil => simp [Tiles]
  | cons r rest ih =>
    simp only [List.cons_append, Tiles, ih]
    constructor
    · rintro ⟨h, hl, middle, hx, hy⟩
      exact ⟨middle, ⟨h, hl, hx⟩, hy⟩
    · rintro ⟨middle, ⟨h, hl, hx⟩, hy⟩
      exact ⟨h, hl, middle, hx, hy⟩

theorem Tiles.sum_length {start stop : Nat} {runs : List Run} (h : Tiles start runs stop) :
    start + (runs.map Run.length).sum = stop := by
  induction runs generalizing start with
  | nil => exact h
  | cons r rest ih =>
    obtain ⟨-, -, h⟩ := h
    simpa [Nat.add_assoc] using ih h

/-- The run stays inside one page of the layout, and its target is where it starts. -/
structure Run.Fits (l : Layout) (r : Run) : Prop where
  target : l.physAt? r.position = some r.target
  inside : r.position % l.pageSize + r.length ≤ l.pageSize

/-- A page that has a physical address has one at each of its positions. -/
theorem Layout.physAt?_add {l : Layout} {position k : Nat} {phys : PhysAddr}
    (h : l.physAt? position = some phys) (hk : position % l.pageSize + k < l.pageSize) :
    l.physAt? (position + k) = some (phys.offset k) := by
  simp only [Layout.physAt?, div_add_of_lt hk, mod_add_of_lt hk, Option.map_eq_some_iff] at h ⊢
  obtain ⟨page, hpage, rfl⟩ := h
  refine ⟨page, hpage, ?_⟩
  simp [PhysAddr.offset, Word.addWrap, Nat.add_assoc]

/-! ## What a cursor keeps -/

/-- Every run that is handed to the sink shows in its log, whether the sink takes it or not. -/
def Sink.Logs {ρ σ : Type} (sink : Sink ρ σ) (log : σ → List Run) : Prop :=
  ∀ run s, log (sink run s).2 = run :: log s

namespace Cursor

/-- The runs handed over so far, given with the last one first, and the pending one. -/
def runs (c : Cursor) (handed : List Run) : List Run := handed.reverse ++ c.pending.toList

/-- The source bytes of the runs handed over so far and of the pending one. -/
def taken (c : Cursor) (handed : List Run) : List (Channel × Nat) :=
  (c.runs handed).flatMap (·.extent.bytes)

/-- The runs handed over so far and the pending one lie end to end from `start` to the position,
each inside a page. -/
structure Laid (start : Nat) (c : Cursor) (handed : List Run) : Prop where
  tiles : Tiles start (c.runs handed) c.position
  fits : ∀ r ∈ c.runs handed, r.Fits c.layout

/-- A run is pending only inside a page. -/
def Open (c : Cursor) : Prop := ∀ r, c.pending = some r → c.position % c.layout.pageSize ≠ 0

theorem laid_new (layout : Layout) (start : Nat) : Laid start ⟨layout, start, none⟩ [] :=
  ⟨by simp [runs, Tiles], by simp [runs]⟩

theorem open_of_none {c : Cursor} (h : c.pending = none) : c.Open := by
  intro r hr
  rw [h] at hr
  cases hr

/-- `c'` and `handed'` differ from `c` and `handed` at most by the pending run, which may have been
handed over. -/
structure Same (c : Cursor) (handed : List Run) (c' : Cursor) (handed' : List Run) : Prop where
  layout : c'.layout = c.layout
  position : c'.position = c.position
  runs : c'.runs handed' = c.runs handed
  pending : c'.pending = c.pending ∨ c'.pending = none

theorem Same.refl (c : Cursor) (handed : List Run) : Same c handed c handed :=
  ⟨rfl, rfl, rfl, .inl rfl⟩

theorem Same.taken {c c' : Cursor} {handed handed' : List Run} (h : Same c handed c' handed') :
    c'.taken handed' = c.taken handed := by
  simp only [Cursor.taken, h.runs]

theorem Same.laid {start : Nat} {c c' : Cursor} {handed handed' : List Run}
    (h : Same c handed c' handed') (hl : Laid start c handed) : Laid start c' handed' where
  tiles := by rw [h.runs, h.position]; exact hl.tiles
  fits := by rw [h.runs, h.layout]; exact hl.fits

theorem Same.open {c c' : Cursor} {handed handed' : List Run} (h : Same c handed c' handed')
    (ho : c.Open) : c'.Open := by
  intro r hr
  rw [h.position, h.layout]
  rcases h.pending with hp | hp
  · exact ho r (hp ▸ hr)
  · rw [hp] at hr; cases hr

section

variable {ρ σ : Type} {sink : Sink ρ σ} {log : σ → List Run} {start : Nat}

/-- Handing the pending run over stops a cursor only if the sink refuses it. -/
theorem flush_same (hs : sink.Logs log) (c : Cursor) (s : σ) :
    Same c (log s) (c.flush sink s).2.1 (log (c.flush sink s).2.2) ∧
      (c.flush sink s).2.1.pending = none ∧ ∀ q, (c.flush sink s).1 ≠ .error (.outside q) := by
  unfold flush
  cases hp : c.pending with
  | none => exact ⟨.refl c _, hp, by simp⟩
  | some run =>
    refine ⟨⟨rfl, rfl, ?_, .inr rfl⟩, rfl, ?_⟩
    · simp [runs, hp, hs run s]
    · intro q
      dsimp only
      cases (sink run s).1 <;> nofun

theorem cutBefore_same (hs : sink.Logs log) (channel : Channel) (source : Nat) (c : Cursor)
    (s : σ) :
    Same c (log s) (c.cutBefore sink channel source s).2.1
        (log (c.cutBefore sink channel source s).2.2) ∧
      ((c.cutBefore sink channel source s).2.1.pending = none ∨
        (c.cutBefore sink channel source s).1 = .ok () ∧
        ∃ run, (c.cutBefore sink channel source s).2.1.pending = some run ∧
          run.continuesAt channel source) ∧
      ∀ q, (c.cutBefore sink channel source s).1 ≠ .error (.outside q) := by
  unfold cutBefore
  cases hp : c.pending with
  | none => exact ⟨.refl c _, .inl hp, by simp⟩
  | some run =>
    dsimp only
    split
    · rename_i hc
      exact ⟨.refl c _, .inr ⟨rfl, run, hp, hc⟩, by simp⟩
    · obtain ⟨h, hn, hq⟩ := flush_same hs c s
      exact ⟨h, .inl hn, hq⟩

theorem cutAtBoundary_same (hs : sink.Logs log) (c : Cursor) (s : σ) :
    Same c (log s) (c.cutAtBoundary sink s).2.1 (log (c.cutAtBoundary sink s).2.2) ∧
      ((c.cutAtBoundary sink s).2.1.pending = none ∨
        (c.cutAtBoundary sink s).1 = .ok () ∧ c.position % c.layout.pageSize ≠ 0) ∧
      ∀ q, (c.cutAtBoundary sink s).1 ≠ .error (.outside q) := by
  unfold cutAtBoundary
  split
  · obtain ⟨h, hn, hq⟩ := flush_same hs c s
    exact ⟨h, .inl hn, hq⟩
  · rename_i hb
    exact ⟨.refl c _, .inr ⟨rfl, hb⟩, by simp⟩

/-! ## Taking bytes -/

/-- What taking bytes does to a cursor: it gets as far as its position says. If it stops, nothing is
pending; it stops by itself only in front of a byte whose position is outside the layout. -/
structure Took (start : Nat) (bytes : List (Channel × Nat)) (c : Cursor) (handed : List Run)
    (answer : Except (Stop ρ) Unit) (c' : Cursor) (handed' : List Run) : Prop where
  laid : Laid start c' handed'
  isOpen : c'.Open
  layout : c'.layout = c.layout
  le : c.position ≤ c'.position ∧ c'.position ≤ c.position + bytes.length
  taken : c'.taken handed' = c.taken handed ++ bytes.take (c'.position - c.position)
  all : answer = .ok () → c'.position = c.position + bytes.length
  outside : ∀ q, answer = .error (.outside q) →
    q = c'.position ∧ q < c.position + bytes.length ∧ c.layout.physAt? q = none
  stopped : ∀ stop, answer = .error stop → c'.pending = none

theorem Took.nothing {c : Cursor} {handed : List Run} (hl : Laid start c handed) (ho : c.Open) :
    Took start [] c handed (.ok () : Except (Stop ρ) Unit) c handed :=
  ⟨hl, ho, rfl, by simp, by simp, by simp, by simp, by simp⟩

/-- A cursor that has stopped takes nothing more. -/
theorem Took.stop {bytes more : List (Channel × Nat)} {c c' : Cursor} {handed handed' : List Run}
    {stop : Stop ρ} (h : Took start bytes c handed (.error stop) c' handed') :
    Took start (bytes ++ more) c handed (.error stop) c' handed' where
  laid := h.laid
  isOpen := h.isOpen
  layout := h.layout
  le := ⟨h.le.1, by simp only [List.length_append]; have := h.le.2; omega⟩
  taken := by
    have := h.le.2
    rw [h.taken, List.take_append_of_le_length (by omega)]
  all := by simp
  outside := by
    intro q hq
    obtain ⟨h1, h2, h3⟩ := h.outside q hq
    exact ⟨h1, by simp only [List.length_append]; omega, h3⟩
  stopped := h.stopped

theorem Took.trans {bytes more : List (Channel × Nat)} {c c' c'' : Cursor}
    {handed handed' handed'' : List Run} {answer : Except (Stop ρ) Unit}
    (h : Took start bytes c handed (.ok () : Except (Stop ρ) Unit) c' handed')
    (h' : Took start more c' handed' answer c'' handed'') :
    Took start (bytes ++ more) c handed answer c'' handed'' := by
  have hall := h.all rfl
  have hle := h'.le
  refine ⟨h'.laid, h'.isOpen, h'.layout.trans h.layout, ?_, ?_, ?_, ?_, h'.stopped⟩
  · simp only [List.length_append]
    omega
  · have hsub : c''.position - c.position =
        bytes.length + (c''.position - c'.position) := by omega
    rw [h'.taken, h.taken, hall, Nat.add_sub_cancel_left, List.take_length, hsub,
      List.take_length_add_append, ← hall, List.append_assoc]
  · intro ha
    have := h'.all ha
    simp only [List.length_append]
    omega
  · intro q hq
    obtain ⟨h1, h2, h3⟩ := h'.outside q hq
    refine ⟨h1, ?_, by rw [← h.layout]; exact h3⟩
    simp only [List.length_append]
    omega

theorem Same.took {bytes : List (Channel × Nat)} {c c' c'' : Cursor}
    {handed handed' handed'' : List Run} {answer : Except (Stop ρ) Unit}
    (h : Same c handed c' handed') (h' : Took start bytes c' handed' answer c'' handed'') :
    Took start bytes c handed answer c'' handed'' where
  laid := h'.laid
  isOpen := h'.isOpen
  layout := h'.layout.trans h.layout
  le := by rw [← h.position]; exact h'.le
  taken := by rw [← h.taken, ← h.position]; exact h'.taken
  all := by rw [← h.position]; exact h'.all
  outside := by rw [← h.position, ← h.layout]; exact h'.outside
  stopped := h'.stopped

/-- Puts bytes that stay inside the page behind the pending run, or into a new one. -/
theorem place_cases {c : Cursor} {handed : List Run} {channel : Channel} {source length : Nat}
    (hl : Laid start c handed) (ho : c.Open) (hpos : 0 < length)
    (hin : c.position % c.layout.pageSize + length ≤ c.layout.pageSize)
    (hc : c.pending = none ∨ ∃ run, c.pending = some run ∧ run.continuesAt channel source) :
    (c.place (ρ := ρ) channel source length = .error (.outside c.position) ∧ c.pending = none ∧
      c.layout.physAt? c.position = none) ∨
    ∃ c', c.place (ρ := ρ) channel source length = .ok c' ∧ Laid start c' handed ∧
      c'.layout = c.layout ∧ c'.position = c.position + length ∧
      c'.taken handed = c.taken handed ++ Extent.bytes ⟨channel, source, length⟩ := by
  obtain ⟨htiles, hfits⟩ := hl
  rcases hc with hn | ⟨run, hr, hcont⟩
  · cases ht : c.layout.physAt? c.position with
    | none => exact .inl ⟨by simp [place, hn, ht], hn, rfl⟩
    | some target =>
      refine .inr ⟨{ c with
        position := c.position + length
        pending := some ⟨channel, source, target, c.position, length⟩ },
        by simp only [place, hn, ht], ⟨?_, ?_⟩, rfl, rfl, ?_⟩
      · rw [runs, hn] at htiles
        simp only [Option.toList_none, List.append_nil] at htiles
        exact tiles_append.2 ⟨_, htiles, rfl, hpos, rfl⟩
      · intro r hr
        simp only [runs, Option.toList_some, List.mem_append, List.mem_singleton] at hr
        rcases hr with hr | rfl
        · exact hfits r (by simp [runs, List.mem_reverse.1 hr])
        · exact ⟨ht, hin⟩
      · simp [taken, runs, hn, Run.extent]
  · refine .inr ⟨{ c with
      position := c.position + length
      pending := some { run with length := run.length + length } },
      by simp only [place, hr], ⟨?_, ?_⟩, rfl, rfl, ?_⟩
    all_goals
      simp only [Run.continuesAt, Bool.and_eq_true, beq_iff_eq] at hcont
      obtain ⟨rfl, rfl⟩ := hcont
    · rw [runs, hr] at htiles
      obtain ⟨middle, hx, hpm, hlen, hstop⟩ := tiles_append.1 htiles
      simp only [Tiles] at hstop
      exact tiles_append.2 ⟨middle, hx, hpm, by dsimp only; omega, by simp only [Tiles]; omega⟩
    · intro r hm
      simp only [runs, Option.toList_some, List.mem_append, List.mem_singleton] at hm
      rcases hm with hm | rfl
      · exact hfits r (by simp [runs, List.mem_reverse.1 hm])
      -- The pending run ends at the position, which is no boundary: what follows is in its page.
      · have hf := hfits run (by simp [runs, hr])
        rw [runs, hr] at htiles
        obtain ⟨middle, -, hpm, -, hstop⟩ := tiles_append.1 htiles
        simp only [Tiles] at hstop
        have hend : run.position + run.length = c.position := by omega
        have hopen := ho run hr
        have hlt : run.position % c.layout.pageSize + run.length < c.layout.pageSize := by
          refine Nat.lt_of_le_of_ne hf.inside fun he => hopen ?_
          rw [← hend, ← Nat.mod_add_mod, he, Nat.mod_self]
        rw [← hend, mod_add_of_lt hlt] at hin
        exact ⟨hf.target, by dsimp only; omega⟩
    · simp only [taken, runs, hr, Option.toList_some, List.flatMap_append, List.flatMap_cons,
        List.flatMap_nil, List.append_nil, Run.extent, List.append_assoc, Extent.bytes_append]

theorem took_advance (hs : sink.Logs log) {c : Cursor} {s : σ} (channel : Channel)
    (source : Nat) {length : Nat} (hl : Laid start c (log s)) (ho : c.Open) (hpos : 0 < length)
    (hin : c.position % c.layout.pageSize + length ≤ c.layout.pageSize) :
    Took start (Extent.bytes ⟨channel, source, length⟩) c (log s)
      (c.advance sink channel source length s).1 (c.advance sink channel source length s).2.1
      (log (c.advance sink channel source length s).2.2) := by
  obtain ⟨hsame, hcut, hq⟩ := cutBefore_same hs channel source c s
  unfold advance
  generalize c.cutBefore sink channel source s = r at hsame hcut hq
  obtain ⟨answer, c₁, s₁⟩ := r
  dsimp only at hsame hcut hq
  have hl₁ := hsame.laid hl
  have ho₁ := hsame.open ho
  refine hsame.took ?_
  cases answer with
  | error stop =>
    have hn : c₁.pending = none := hcut.resolve_right (by simp)
    exact ⟨hl₁, ho₁, rfl, by simp, by simp, by simp, fun q he => absurd he (hq q), fun _ _ => hn⟩
  | ok =>
    rw [← hsame.position, ← hsame.layout] at hin
    rcases place_cases (ρ := ρ) hl₁ ho₁ hpos hin (hcut.imp_right And.right) with
      ⟨he, hn, hout⟩ | ⟨c₂, hok, hl₂, hlay, hposn, htaken⟩
    · simp only [he]
      exact ⟨hl₁, ho₁, rfl, by simp, by simp, by simp, by simpa [hpos] using hout, fun _ _ => hn⟩
    · obtain ⟨hsame₂, hcut₂, hq₂⟩ := cutAtBoundary_same hs c₂ s₁
      simp only [hok]
      generalize c₂.cutAtBoundary sink s₁ = r at hsame₂ hcut₂ hq₂
      obtain ⟨answer, c₃, s₃⟩ := r
      dsimp only at hsame₂ hcut₂ hq₂ ⊢
      have hpos₃ : c₃.position = c₁.position + length := hsame₂.position.trans hposn
      refine ⟨hsame₂.laid hl₂, ?_, hsame₂.layout.trans hlay, ?_, ?_, ?_, ?_, ?_⟩
      · rcases hcut₂ with hn | ⟨-, hb⟩
        · exact open_of_none hn
        · intro r _
          rw [hsame₂.position, hsame₂.layout]
          exact hb
      · simp only [Extent.length_bytes]
        omega
      · rw [hsame₂.taken, htaken, hpos₃, Nat.add_sub_cancel_left, List.take_of_length_le (by simp)]
      · intro _
        simpa using hpos₃
      · exact fun q he => absurd he (hq₂ q)
      · rintro stop rfl
        exact hcut₂.resolve_right (by simp)

theorem took_advanceAll (hs : sink.Logs log) {c : Cursor} {s : σ} (channel : Channel)
    (source : Nat) {length : Nat} (hp : 0 < c.layout.pageSize) (hl : Laid start c (log s)) (ho : c.Open) :
    Took start (Extent.bytes ⟨channel, source, length⟩) c (log s)
      (c.advanceAll sink channel source length s).1
      (c.advanceAll sink channel source length s).2.1
      (log (c.advanceAll sink channel source length s).2.2) := by
  induction length using Nat.strongRecOn generalizing c s source with
  | ind length ih =>
    rw [advanceAll]
    split
    · rename_i h
      obtain rfl : length = 0 := h.resolve_left (by omega)
      exact .nothing hl ho
    · rename_i h
      have hpos := Span.first_length_pos c.position h
      have hle := Span.first_length_le c.layout.pageSize c.position length
      have hin := Span.first_within hp c.position length
      dsimp only
      generalize (Span.first c.layout.pageSize c.position length).length = size at hpos hle hin ⊢
      have hfirst := took_advance hs channel source hl ho hpos hin
      have hbytes : Extent.bytes ⟨channel, source, length⟩ =
          Extent.bytes ⟨channel, source, size⟩ ++
            Extent.bytes ⟨channel, source + size, length - size⟩ := by
        rw [Extent.bytes_append, Nat.add_sub_of_le hle]
      rw [hbytes]
      generalize c.advance sink channel source size s = r at hfirst
      obtain ⟨answer, c₁, s₁⟩ := r
      cases answer with
      | error stop => exact hfirst.stop
      | ok =>
        refine hfirst.trans (ih (length - size) (by omega) _ ?_ hfirst.laid hfirst.isOpen)
        rw [hfirst.layout]
        exact hp

/-- Taking an extent. -/
theorem took_push (hs : sink.Logs log) {c : Cursor} {s : σ} (e : Extent)
    (hp : 0 < c.layout.pageSize) (hl : Laid start c (log s)) (ho : c.Open) :
    Took start e.bytes c (log s) (c.push sink e s).1 (c.push sink e s).2.1
      (log (c.push sink e s).2.2) :=
  took_advanceAll hs e.channel e.source hp hl ho

/-- Taking extents until one stops the cursor. -/
theorem took_pushAll (hs : sink.Logs log) {c : Cursor} {s : σ} (extents : List Extent)
    (hp : 0 < c.layout.pageSize) (hl : Laid start c (log s)) (ho : c.Open) :
    Took start (extents.flatMap Extent.bytes) c (log s) (c.pushAll sink extents s).1
      (c.pushAll sink extents s).2.1 (log (c.pushAll sink extents s).2.2) := by
  induction extents generalizing c s with
  | nil => exact .nothing hl ho
  | cons e rest ih =>
    have hfirst := took_push hs e hp hl ho
    rw [List.flatMap_cons, pushAll]
    generalize c.push sink e s = r at hfirst
    obtain ⟨answer, c₁, s₁⟩ := r
    cases answer with
    | error stop => exact hfirst.stop
    | ok =>
      refine hfirst.trans (ih ?_ hfirst.laid hfirst.isOpen)
      rw [hfirst.layout]
      exact hp

/-- Taking extents and handing the last run over: at the end nothing is pending. -/
theorem took_drive (hs : sink.Logs log) {c : Cursor} {s : σ} (extents : List Extent)
    (hp : 0 < c.layout.pageSize) (hl : Laid start c (log s)) (ho : c.Open) :
    ∃ c', c'.pending = none ∧ Took start (extents.flatMap Extent.bytes) c (log s)
      (c.drive sink extents s).1 c' (log (c.drive sink extents s).2) := by
  have h := took_pushAll hs extents hp hl ho
  unfold drive
  generalize c.pushAll sink extents s = r at h
  obtain ⟨answer, c₁, s₁⟩ := r
  cases answer with
  | error stop => exact ⟨c₁, h.stopped stop rfl, h⟩
  | ok =>
    obtain ⟨hsame, hn, hq⟩ := flush_same hs c₁ s₁
    dsimp only at h ⊢
    generalize c₁.flush sink s₁ = r at hsame hn hq
    obtain ⟨answer, c₂, s₂⟩ := r
    refine ⟨c₂, hn, hsame.laid h.laid, open_of_none hn, hsame.layout.trans h.layout, ?_, ?_, ?_,
      fun q he => absurd he (hq q), fun _ _ => hn⟩
    · rw [hsame.position]
      exact h.le
    · rw [hsame.taken, hsame.position]
      exact h.taken
    · intro _
      rw [hsame.position]
      exact h.all rfl

end

end Cursor

end PeerDma
