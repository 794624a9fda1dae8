import Mathlib.Data.List.Chain
import PeerDma.Proofs.Plan

/-!
# Fewest runs

Two runs of a plan that follow each other part only where they have to: at a page boundary, or
where the source of the second does not go on from the first. So the first run of a plan is as long
as the first run of any list that writes the same bytes can be, and so on: no such list is shorter,
and how the bytes are cut into extents makes no difference.

* `Writes`: the lists of runs that write given bytes, with or without need for each of them.
* `Run.Parts`, `planRuns_parts`: where the runs of a plan part.
* `length_le_of_parts`, `eq_of_parts`: runs that part only where they have to are the fewest, and
  there is one list of them.
* `planRuns_fewest`: the whole of it.
-/

namespace PeerDma

/-! ## Runs that write bytes -/

/-- The runs lie end to end from a position on. Some may be empty. -/
def Abut : Nat → List Run → Prop
  | _, [] => True
  | start, r :: rest => r.position = start ∧ Abut (start + r.length) rest

/-- Runs that write bytes from a position on: they lie end to end, each inside one page, and read
the bytes in order. Where they go in device memory is left open. -/
structure Writes (l : Layout) (start : Nat) (bytes : List (Channel × Nat)) (runs : List Run) :
    Prop where
  abut : Abut start runs
  inside : ∀ r ∈ runs, r.position % l.pageSize + r.length ≤ l.pageSize
  reads : runs.flatMap (·.extent.bytes) = bytes

/-- Two runs that follow each other have to be two: the first one ends at a page boundary, or the
second one does not go on where the source of the first one ends. -/
def Run.Parts (l : Layout) (r next : Run) : Prop :=
  (r.position + r.length) % l.pageSize = 0 ∨ ¬r.continuesAt next.channel next.source

/-- A run without its first bytes. -/
def Run.drop (r : Run) (k : Nat) : Run :=
  ⟨r.channel, r.source + k, r.target.offset k, r.position + k, r.length - k⟩

theorem Run.length_bytes (r : Run) : r.extent.bytes.length = r.length :=
  Extent.length_bytes r.extent

theorem Run.getElem?_bytes {r : Run} {k : Nat} (h : k < r.length) (more : List (Channel × Nat)) :
    (r.extent.bytes ++ more)[k]? = some (r.channel, r.source + k) := by
  rw [List.getElem?_append_left (r.length_bytes.symm ▸ h)]
  simp [Run.extent, Extent.bytes, h]

theorem Run.bytes_drop {r : Run} {k : Nat} (h : k ≤ r.length) :
    r.extent.bytes = Extent.bytes ⟨r.channel, r.source, k⟩ ++ (r.drop k).extent.bytes := by
  show _ = _ ++ Extent.bytes ⟨r.channel, r.source + k, r.length - k⟩
  rw [Extent.bytes_append, Nat.add_sub_of_le h]
  rfl

/-- What has to be apart from a run has to be apart from its last bytes. -/
theorem Run.parts_drop {l : Layout} {r next : Run} {k : Nat} (hk : k ≤ r.length) :
    (r.drop k).Parts l next ↔ r.Parts l next := by
  have hstop : r.position + k + (r.length - k) = r.position + r.length := by omega
  have hsource : r.source + k + (r.length - k) = r.source + r.length := by omega
  simp only [Parts, drop, continuesAt, hstop, hsource]

theorem Tiles.abut {start stop : Nat} {runs : List Run} (h : Tiles start runs stop) :
    Abut start runs := by
  induction runs generalizing start with
  | nil => trivial
  | cons r rest ih => exact ⟨h.1, ih h.2.2⟩

theorem Tiles.eq_nil {start stop : Nat} {runs : List Run} (h : Tiles start runs stop)
    (hbytes : runs.flatMap (·.extent.bytes) = []) : runs = [] := by
  cases runs with
  | nil => rfl
  | cons r rest =>
    have hempty : r.extent.bytes = [] := (List.append_eq_nil_iff.1 hbytes).1
    have hlength : r.length = 0 := by rw [← r.length_bytes, hempty, List.length_nil]
    exact absurd hlength h.2.1.ne'

/-! ## Runs that part only where they have to -/

section

variable {l : Layout} {start stop : Nat} {r o : Run} {rest others : List Run}

/-- If the runs part only where they have to, the first one reaches as far as that of any other list
of runs that write the same bytes. -/
theorem length_head_le (ht : Tiles start (r :: rest) stop)
    (hparts : (r :: rest).IsChain (Run.Parts l))
    (ho : Writes l start ((r :: rest).flatMap (·.extent.bytes)) (o :: others)) :
    o.length ≤ r.length := by
  by_contra hlt
  obtain ⟨hstart, hpos, htail⟩ := ht
  have hbytes : o.extent.bytes ++ others.flatMap (·.extent.bytes) =
      r.extent.bytes ++ rest.flatMap (·.extent.bytes) := ho.reads
  have hget {k : Nat} (hk : k < o.length) :
      (r.extent.bytes ++ rest.flatMap (·.extent.bytes))[k]? = some (o.channel, o.source + k) := by
    rw [← hbytes, Run.getElem?_bytes hk]
  have hfirst : (r.channel, r.source) = (o.channel, o.source) :=
    Option.some.inj ((Run.getElem?_bytes hpos _).symm.trans (hget (hpos.trans_le (by omega))))
  have hnext := hget (Nat.lt_of_not_le hlt)
  rw [List.getElem?_append_right r.length_bytes.le, r.length_bytes, Nat.sub_self] at hnext
  cases rest with
  | nil => simp at hnext
  | cons s more =>
    -- The next run begins inside the page, where the source of this one ends.
    obtain ⟨hs, hspos, -⟩ := htail
    have hsource : (s.channel, s.source) = (o.channel, o.source + r.length) :=
      Option.some.inj ((Run.getElem?_bytes hspos _).symm.trans hnext)
    have hin := ho.inside o (.head _)
    have habut : o.position = start := ho.abut.1
    rcases (List.isChain_cons_cons.1 hparts).1 with hboundary | hbreak
    · rw [habut] at hin
      rw [hstart, mod_add_of_lt (by omega)] at hboundary
      omega
    · apply hbreak
      simp only [Prod.mk.injEq] at hfirst hsource
      simp [Run.continuesAt, hfirst, hsource]

/-- What is left of runs that write the same bytes, behind the first of `others`. -/
theorem Writes.tail (ho : Writes l start ((r :: rest).flatMap (·.extent.bytes)) (o :: others))
    (hle : o.length ≤ r.length) :
    Writes l (start + o.length) ((r.drop o.length :: rest).flatMap (·.extent.bytes)) others where
  abut := ho.abut.2
  inside s hs := ho.inside s (.tail _ hs)
  reads := by
    have hbytes : o.extent.bytes ++ others.flatMap (·.extent.bytes) =
        Extent.bytes ⟨r.channel, r.source, o.length⟩ ++
          ((r.drop o.length).extent.bytes ++ rest.flatMap (·.extent.bytes)) := by
      rw [← List.append_assoc, ← Run.bytes_drop hle]
      exact ho.reads
    exact (List.append_inj hbytes (by simp [Run.extent])).2

/-- **Runs that part only where they have to are the fewest.** -/
theorem length_le_of_parts {runs : List Run} (ht : Tiles start runs stop)
    (hparts : runs.IsChain (Run.Parts l))
    (ho : Writes l start (runs.flatMap (·.extent.bytes)) others) :
    runs.length ≤ others.length := by
  induction others generalizing start runs with
  | nil =>
    rw [ht.eq_nil ho.reads.symm]
  | cons o others ih =>
    cases runs with
    | nil => exact Nat.zero_le _
    | cons r rest =>
      have hle := length_head_le ht hparts ho
      have htail := ho.tail hle
      rcases Nat.lt_or_eq_of_le hle with hlt | heq
      · -- The other list cuts the first run in two; what is left of it is still to be written.
        have hrest : Tiles (start + o.length) (r.drop o.length :: rest) stop := by
          refine ⟨by simp [Run.drop, ht.1], Nat.sub_pos_of_lt hlt, ?_⟩
          have hend : start + o.length + (r.drop o.length).length = start + r.length := by
            simp only [Run.drop]
            omega
          rw [hend]
          exact ht.2.2
        have hchain : (r.drop o.length :: rest).IsChain (Run.Parts l) := by
          rw [List.isChain_cons] at hparts ⊢
          exact ⟨fun s hs => (Run.parts_drop hle).2 (hparts.1 s hs), hparts.2⟩
        exact (ih hrest hchain htail).trans (Nat.le_succ _)
      · have hnil : (r.drop o.length).extent.bytes = [] := by
          simp [Run.drop, Run.extent, Extent.bytes, heq]
        rw [List.flatMap_cons, hnil, List.nil_append, heq] at htail
        exact Nat.succ_le_succ (ih ht.2.2 hparts.tail htail)

theorem Tiles.writes {runs : List Run} (ht : Tiles start runs stop) (hfits : ∀ r ∈ runs, r.Fits l) :
    Writes l start (runs.flatMap (·.extent.bytes)) runs :=
  ⟨ht.abut, fun r hr => (hfits r hr).inside, rfl⟩

/-- Runs that part only where they have to are determined by the bytes that they read. -/
theorem eq_of_parts {runs runs' : List Run} {stop' : Nat}
    (ht : Tiles start runs stop) (ht' : Tiles start runs' stop')
    (hfits : ∀ r ∈ runs, r.Fits l) (hfits' : ∀ r ∈ runs', r.Fits l)
    (hparts : runs.IsChain (Run.Parts l)) (hparts' : runs'.IsChain (Run.Parts l))
    (hbytes : runs.flatMap (·.extent.bytes) = runs'.flatMap (·.extent.bytes)) : runs = runs' := by
  induction runs generalizing start runs' with
  | nil => exact (ht'.eq_nil hbytes.symm).symm
  | cons r rest ih =>
    cases runs' with
    | nil => exact ht.eq_nil hbytes
    | cons r' rest' =>
      have hlength : r.length = r'.length :=
        Nat.le_antisymm (length_head_le ht' hparts' (hbytes ▸ ht.writes hfits))
          (length_head_le ht hparts (hbytes ▸ ht'.writes hfits'))
      have htail := (List.append_inj hbytes
        (r.length_bytes.trans (hlength.trans r'.length_bytes.symm))).2
      have hsource : (r.channel, r.source) = (r'.channel, r'.source) :=
        Option.some.inj ((Run.getElem?_bytes ht.2.1 _).symm.trans
          ((congrArg (·[0]?) hbytes).trans (Run.getElem?_bytes ht'.2.1 _)))
      have htarget : r.target = r'.target := by
        have h₁ := (hfits r (.head _)).target
        have h₂ := (hfits' r' (.head _)).target
        rw [ht.1] at h₁
        rw [ht'.1] at h₂
        exact Option.some.inj (h₁.symm.trans h₂)
      have heq : r = r' := by
        obtain ⟨channel, source, target, position, length⟩ := r
        obtain ⟨channel', source', target', position', length'⟩ := r'
        simp only [Prod.mk.injEq] at hsource
        simp only [Run.mk.injEq]
        exact ⟨hsource.1, hsource.2, htarget, ht.1.trans ht'.1.symm, hlength⟩
      subst heq
      rw [ih ht.2.2 ht'.2.2 (fun s hs => hfits s (.tail _ hs)) (fun s hs => hfits' s (.tail _ hs))
        hparts.tail hparts'.tail htail]

end

/-! ## Where the runs of a plan part -/

namespace Cursor

/-- The last run handed over has to be apart from bytes at `source` on `channel`. -/
def Apart (c : Cursor) (handed : List Run) (channel : Channel) (source : Nat) : Prop :=
  ∀ r ∈ handed.head?,
    (r.position + r.length) % c.layout.pageSize = 0 ∨ ¬r.continuesAt channel source

/-- The runs handed over and the pending one part only where they have to. If none is pending, the
next byte begins a page, or is the first one. -/
structure Tight (c : Cursor) (handed : List Run) : Prop where
  parts : (c.runs handed).IsChain (Run.Parts c.layout)
  idle : c.pending = none → handed = [] ∨ c.position % c.layout.pageSize = 0

variable {start : Nat} {c c' : Cursor} {handed : List Run} {channel : Channel} {source length : Nat}

theorem tight_new (layout : Layout) (start : Nat) : Tight ⟨layout, start, none⟩ [] :=
  ⟨.nil, fun _ => .inl rfl⟩

/-- The last run handed over ends at the position, if none is pending. -/
theorem Laid.stop_head (hl : Laid start c handed) (hn : c.pending = none) {r : Run}
    (hr : r ∈ handed.head?) : r.position + r.length = c.position := by
  obtain ⟨rest, rfl⟩ := List.head?_eq_some_iff.1 hr
  have htiles := hl.tiles
  rw [runs, hn, Option.toList_none, List.append_nil, List.reverse_cons] at htiles
  obtain ⟨middle, -, hpos, -, hstop⟩ := tiles_append.1 htiles
  rw [hpos]
  exact hstop

theorem Tight.apart (ht : Tight c handed) (hl : Laid start c handed) (hn : c.pending = none)
    (channel : Channel) (source : Nat) : c.Apart handed channel source := by
  intro r hr
  rcases ht.idle hn with rfl | hboundary
  · cases hr
  · exact .inl (hl.stop_head hn hr ▸ hboundary)

/-- Bytes that go on where the pending run ends make it longer; else they begin a run, which has to
be apart from the last one. -/
theorem parts_place {ρ : Type} (hparts : (c.runs handed).IsChain (Run.Parts c.layout))
    (hapart : c.pending = none → c.Apart handed channel source)
    (h : c.place (ρ := ρ) channel source length = .ok c') :
    (c'.runs handed).IsChain (Run.Parts c'.layout) ∧ c'.pending ≠ none := by
  unfold place at h
  cases hn : c.pending with
  | none =>
    rw [hn] at h
    dsimp only at h
    split at h
    · cases h
    · cases h
      rw [runs, hn, Option.toList_none, List.append_nil] at hparts
      refine ⟨List.isChain_append.2 ⟨hparts, .singleton _, fun r hr next hnext => ?_⟩,
        Option.some_ne_none _⟩
      obtain rfl := Option.some.inj hnext
      exact hapart hn r (List.getLast?_reverse ▸ hr)
  | some run =>
    rw [hn] at h
    cases h
    rw [runs, hn] at hparts
    obtain ⟨hhanded, -, hlast⟩ := List.isChain_append.1 hparts
    refine ⟨List.isChain_append.2 ⟨hhanded, .singleton _, fun r hr next hnext => ?_⟩,
      Option.some_ne_none _⟩
    obtain rfl := Option.some.inj hnext
    exact hlast r hr run rfl

section

variable {ρ σ : Type} {sink : Sink ρ σ} {log : σ → List Run} {s s' : σ}

theorem parts_cutBefore (hs : sink.Logs log) (hl : Laid start c (log s)) (ht : Tight c (log s))
    (h : c.cutBefore sink channel source s = (.ok (), c', s')) :
    (c'.runs (log s')).IsChain (Run.Parts c'.layout) ∧
      (c'.pending = none → c'.Apart (log s') channel source) := by
  have hsame := (cutBefore_same hs channel source c s).1
  rw [h] at hsame
  refine ⟨by rw [hsame.runs, hsame.layout]; exact ht.parts, fun hn => ?_⟩
  unfold cutBefore at h
  cases hpending : c.pending with
  | none =>
    rw [hpending] at h
    cases h
    exact ht.apart hl hpending channel source
  | some run =>
    rw [hpending] at h
    dsimp only at h
    split at h
    · cases h
      cases hpending.symm.trans hn
    · next hbreak =>
      -- The pending run has been handed over because the bytes do not go on from it.
      have hlog : log s' = run :: log s := by
        unfold flush at h
        rw [hpending] at h
        have hstate : (sink run s).2 = s' := congrArg (·.2.2) h
        rw [← hstate, hs run s]
      intro r hr
      rw [hlog] at hr
      obtain rfl := Option.some.inj hr
      exact .inr hbreak

theorem tight_cutAtBoundary (hs : sink.Logs log)
    (hparts : (c.runs (log s)).IsChain (Run.Parts c.layout)) (hn : c.pending ≠ none)
    (h : c.cutAtBoundary sink s = (.ok (), c', s')) : Tight c' (log s') := by
  have hsame := (cutAtBoundary_same hs c s).1
  rw [h] at hsame
  refine ⟨by rw [hsame.runs, hsame.layout]; exact hparts, fun hn' => .inr ?_⟩
  unfold cutAtBoundary at h
  split at h
  · next hboundary =>
    rw [hsame.position, hsame.layout]
    exact hboundary
  · cases h
    exact absurd hn' hn

theorem tight_advance (hs : sink.Logs log) (hl : Laid start c (log s)) (ht : Tight c (log s))
    (h : c.advance sink channel source length s = (.ok (), c', s')) : Tight c' (log s') := by
  unfold advance at h
  rcases hcut : c.cutBefore sink channel source s with ⟨_ | _, c₁, s₁⟩ <;> rw [hcut] at h
  · cases h
  obtain ⟨hparts₁, hapart⟩ := parts_cutBefore hs hl ht hcut
  dsimp only at h
  rcases hplace : c₁.place (ρ := ρ) channel source length with _ | c₂ <;> rw [hplace] at h
  · cases h
  obtain ⟨hparts₂, hn⟩ := parts_place hparts₁ hapart hplace
  exact tight_cutAtBoundary hs hparts₂ hn h

theorem tight_advanceAll (hs : sink.Logs log) (hp : 0 < c.layout.pageSize)
    (hl : Laid start c (log s)) (ho : c.Open) (ht : Tight c (log s))
    (h : c.advanceAll sink channel source length s = (.ok (), c', s')) : Tight c' (log s') := by
  induction length using Nat.strongRecOn generalizing c s source with
  | ind length ih =>
    rw [advanceAll] at h
    split at h
    · cases h
      exact ht
    · next hmore =>
      have hpos := Span.first_length_pos c.position hmore
      have hin := Span.first_within hp c.position length
      dsimp only at h
      generalize (Span.first c.layout.pageSize c.position length).length = size at hpos hin h
      have htook := took_advance hs channel source hl ho hpos hin
      rcases hadvance : c.advance sink channel source size s with ⟨_ | _, c₁, s₁⟩ <;>
        rw [hadvance] at h htook
      · cases h
      · exact ih (length - size) (by omega) (htook.layout ▸ hp) htook.laid htook.isOpen
          (tight_advance hs hl ht hadvance) h

theorem tight_pushAll (hs : sink.Logs log) {extents : List Extent} (hp : 0 < c.layout.pageSize)
    (hl : Laid start c (log s)) (ho : c.Open) (ht : Tight c (log s))
    (h : c.pushAll sink extents s = (.ok (), c', s')) : Tight c' (log s') := by
  induction extents generalizing c s with
  | nil =>
    cases h
    exact ht
  | cons e rest ih =>
    have htook := took_push hs e hp hl ho
    rw [pushAll] at h
    rcases hpush : c.push sink e s with ⟨_ | _, c₁, s₁⟩ <;> rw [hpush] at h htook
    · cases h
    · exact ih (htook.layout ▸ hp) htook.laid htook.isOpen (tight_advanceAll hs hp hl ho ht hpush) h

theorem parts_drive (hs : sink.Logs log) {extents : List Extent} (hp : 0 < c.layout.pageSize)
    (hl : Laid start c (log s)) (ho : c.Open) (ht : Tight c (log s))
    (h : c.drive sink extents s = (.ok (), s')) :
    (log s').reverse.IsChain (Run.Parts c.layout) := by
  have htook := took_pushAll hs extents hp hl ho
  unfold drive at h
  rcases hpush : c.pushAll sink extents s with ⟨_ | _, c₁, s₁⟩ <;> rw [hpush] at h htook
  · cases h
  have htight := tight_pushAll hs hp hl ho ht hpush
  obtain ⟨hsame, hn, -⟩ := flush_same hs c₁ s₁
  have hstate : (c₁.flush sink s₁).2.2 = s' := congrArg Prod.snd h
  rw [hstate] at hsame
  have hruns := hsame.runs
  rw [runs, hn, Option.toList_none, List.append_nil] at hruns
  rw [hruns, ← htook.layout]
  exact htight.parts

end

end Cursor

/-- The runs of a plan part only where they have to. -/
theorem planRuns_parts {layout : Layout} {start : Nat} {extents : List Extent} {runs : List Run}
    (hp : 0 < layout.pageSize) (h : planRuns layout start extents = .ok runs) :
    runs.IsChain (Run.Parts layout) := by
  unfold planRuns at h
  rcases hdrive : (Cursor.mk layout start none).drive collect extents [] with ⟨_ | _, collected⟩ <;>
    rw [hdrive] at h
  · cases h
  obtain rfl : collected.reverse = runs := Except.ok.inj h
  have hparts := Cursor.parts_drive collect_logs hp (Cursor.laid_new layout start)
    (Cursor.open_of_none rfl) (Cursor.tight_new layout start) hdrive
  exact hparts

/-- Where a plan stops: behind the page table, or where it begins. -/
theorem planRuns_stop {layout : Layout} {start : Nat} {extents : List Extent} {stop : Stop Empty}
    (hp : 0 < layout.pageSize) (h : planRuns layout start extents = .error stop) :
    stop = .outside (max start layout.size) := by
  obtain ⟨answer, runs, c, hplan, hruns, htook⟩ := planRuns_took start extents hp
  rw [hplan] at h
  cases answer with
  | ok => cases h
  | error stop' =>
    obtain rfl : stop' = stop := by simpa [Except.map] using h
    cases stop' with
    | refused reason => exact reason.elim
    | outside position =>
      obtain ⟨hpos, -, hnone⟩ := htook.outside position rfl
      have hbehind := (Layout.physAt?_eq_none_iff hp).1 hnone
      have htiles := htook.laid.tiles
      have hfits := htook.laid.fits
      rw [hruns] at htiles hfits
      rw [htook.layout] at hfits
      have hle : start ≤ position := hpos ▸ htook.le.1
      refine congrArg _ ?_
      rcases htiles.eq_or_exists_last with he | ⟨r, hr, hstop⟩
      · omega
      · have hstop_le : r.position + r.length ≤ layout.size := (hfits r hr).stop_le hp
        omega

/-! ## Plans and bytes -/

/-- From no bytes comes no run, whatever the layout. -/
theorem planRuns_of_bytes_nil (layout : Layout) (start : Nat) {extents : List Extent}
    (h : extents.flatMap Extent.bytes = []) : planRuns layout start extents = .ok [] := by
  have hpush : (Cursor.mk layout start none).pushAll collect extents [] =
      (.ok (), Cursor.mk layout start none, []) := by
    induction extents with
    | nil => rfl
    | cons e rest ih =>
      obtain ⟨he, hrest⟩ := List.append_eq_nil_iff.1 h
      have hlength : e.length = 0 := by
        rw [← Extent.length_bytes, show e.bytes = [] from he, List.length_nil]
      rw [Cursor.pushAll, Cursor.push, Cursor.advanceAll, dif_pos (.inr hlength)]
      exact ih hrest
  unfold planRuns Cursor.drive
  rw [hpush]
  rfl

/-- The same bytes are planned alike. -/
theorem planRuns_congr {layout : Layout} (hp : 0 < layout.pageSize) (start : Nat)
    {extents others : List Extent}
    (h : others.flatMap Extent.bytes = extents.flatMap Extent.bytes) :
    planRuns layout start others = planRuns layout start extents := by
  have hsum : (others.map Extent.length).sum = (extents.map Extent.length).sum := by
    rw [← length_flatMap_bytes, h, length_flatMap_bytes]
  have hok := planRuns_isOk_iff hp start others
  rw [hsum, ← planRuns_isOk_iff hp start extents] at hok
  rcases hplan : planRuns layout start extents with stop | runs
  · rcases hplan' : planRuns layout start others with stop' | runs'
    · rw [planRuns_stop hp hplan, planRuns_stop hp hplan']
    · obtain ⟨runs, hruns⟩ := hok.1 ⟨runs', hplan'⟩
      cases hplan.symm.trans hruns
  · obtain ⟨runs', hplan'⟩ := hok.2 ⟨runs, hplan⟩
    obtain ⟨htiles, hfits, hbytes⟩ := planRuns_ok hp hplan
    obtain ⟨htiles', hfits', hbytes'⟩ := planRuns_ok hp hplan'
    rw [hplan', eq_of_parts htiles' htiles hfits' hfits (planRuns_parts hp hplan')
      (planRuns_parts hp hplan) (hbytes'.trans (h.trans hbytes.symm))]

/-- **Plans have the fewest runs.** A plan that succeeds writes the bytes of its extents, and no
other list of runs that writes them from the same position on, each inside one page, is shorter.
And it makes no difference how the bytes are cut into extents: from the same bytes comes the same
plan, or it fails at the same position. Only if there is nothing to write may pages be empty. -/
theorem planRuns_fewest (layout : Layout) (start : Nat) (extents : List Extent)
    (hp : 0 < layout.pageSize ∨ extents.flatMap Extent.bytes = []) :
    (∀ runs, planRuns layout start extents = .ok runs →
      Writes layout start (extents.flatMap Extent.bytes) runs ∧
        ∀ others, Writes layout start (extents.flatMap Extent.bytes) others →
          runs.length ≤ others.length) ∧
      ∀ others : List Extent, others.flatMap Extent.bytes = extents.flatMap Extent.bytes →
        planRuns layout start others = planRuns layout start extents := by
  rcases hp with hp | hnone
  · refine ⟨fun runs h => ?_, fun others h => planRuns_congr hp start h⟩
    obtain ⟨htiles, hfits, hbytes⟩ := planRuns_ok hp h
    rw [← hbytes]
    exact ⟨htiles.writes hfits, fun others ho => length_le_of_parts htiles (planRuns_parts hp h) ho⟩
  · have hplan := planRuns_of_bytes_nil layout start hnone
    refine ⟨fun runs h => ?_, fun others h => ?_⟩
    · obtain rfl : [] = runs := Except.ok.inj (hplan.symm.trans h)
      exact ⟨⟨trivial, nofun, hnone.symm⟩, fun others _ => Nat.zero_le _⟩
    · rw [planRuns_of_bytes_nil layout start (h.trans hnone), hplan]

/-- Six bytes that come in four extents, one of them empty, are written in three runs: they cross
into the next page, and their source jumps once. -/
theorem planRuns_fewest_scattered :
    let layout : Layout := ⟨4, #[⟨100⟩, ⟨104⟩]⟩
    let extents : List Extent :=
      [⟨.memory, 10, 1⟩, ⟨.storage, 7, 0⟩, ⟨.memory, 11, 3⟩, ⟨.memory, 20, 2⟩]
    let pieces : List Extent :=
      [⟨.memory, 10, 2⟩, ⟨.memory, 12, 2⟩, ⟨.memory, 20, 1⟩, ⟨.memory, 21, 1⟩]
    0 < layout.pageSize ∧
      ∃ runs, planRuns layout 2 extents = .ok runs ∧ runs.length = 3 ∧
        planRuns layout 2 pieces = .ok runs ∧
        ∀ others, Writes layout 2 (extents.flatMap Extent.bytes) others → 3 ≤ others.length := by
  intro layout extents pieces
  have hp : 0 < layout.pageSize := by decide
  obtain ⟨hfewest, hsame⟩ := planRuns_fewest layout 2 extents (.inl hp)
  have hplan : planRuns layout 2 extents = .ok [⟨.memory, 10, ⟨102⟩, 2, 2⟩,
      ⟨.memory, 12, ⟨104⟩, 4, 2⟩, ⟨.memory, 20, ⟨106⟩, 6, 2⟩] := by cbv
  exact ⟨hp, _, hplan, rfl, (hsame pieces (by decide)).trans hplan, (hfewest _ hplan).2⟩

end PeerDma
