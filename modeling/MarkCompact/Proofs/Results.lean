import MarkCompact.Proofs.Checking
import MarkCompact.Proofs.Outcomes

/-!
# What a cycle comes to

A cycle on a well-formed heap succeeds.  It plans as `Heap.plan` says, carries the plan out,
redirects the roots by it and moves the tops.

Main statements: `finish_runs` (what is left to do after compaction), `WellFormed.runCycle_runs` (a
whole cycle) and `Plan.Compacted.orderly` (the next cycle can start from what it leaves).
-/

namespace MarkCompact

variable {p : Plan} {zones : List Zone} {objects : List (List Span)} {strong : List ℕ} {o : Span}
  {z z' : Zone} {a i x : ℕ} {limiter : Limiter} {maximum : Bool}

/-! ## After compaction -/

namespace Heap

/-- The heap with its tops at the new tops. -/
def settled {μ : Type} (h : Heap μ) : Heap μ :=
  { h with spaces := h.spaces.map Space.settled }

/-- What is summed up of the spaces, which used so many words before the cycle. -/
def summaries {μ : Type} (h : Heap μ) (used : List ℕ) : List SpaceSummary :=
  (h.spaces.zip used).map fun (s, used) => ⟨s.name, used, s.newTop, s.densePrefix, s.liveWords⟩

/-- What is summed up of a cycle that carries out the plan. -/
noncomputable def summary {μ : Type} (h : Heap μ) (p : Plan) (maximum : Bool)
    (number liveObjects : ℕ) (used weak : List ℕ) :
    CycleSummary where
  number
  spaces := h.summaries used
  liveObjects
  maximum
  weakCleared := weak.countP p.Clears
  totals := p.totals

lemma summaries_settled {μ : Type} (h : Heap μ) (used : List ℕ) :
    h.settled.summaries used = h.summaries used := by
  rw [summaries, settled, List.zip_map_left, List.map_map]
  rfl

/-- Reporting a list of records. -/
lemma runs_forM_report {μ : Type} {h : Heap μ} {records : List LogRecord} :
    Runs (records.forM report) h fun _ h' => ∃ log, h' = { h with log } := by
  induction records generalizing h with
  | nil => exact runs_forM_nil.2 ⟨h.log, rfl⟩
  | cons record rest ih =>
    rw [runs_forM_cons, runs_report]
    refine ih.mono fun _ h' => ?_
    rintro ⟨log, rfl⟩
    exact ⟨log, rfl⟩

variable {h : Heap MemoryImage}

/-- When the plan has been carried out, roots are redirected, the check passes and the tops are
moved. -/
theorem finish_runs (hc : p.Compacted h) (hp : p.FitsMemory) (hsound : p.Sound) {roots : Roots}
    (hknown : ∀ a ∈ roots.strong, p.Known a) {used : List ℕ}
    (hused : used = p.zones.map fun z => z.top - z.first * p.regionWords) (s : Settings)
    (number : ℕ) (marked : MarkTotals) :
    Runs (finish s maximum number roots used marked p.totals) h fun out h' => ∃ t log,
      h' = { h with table := t, log }.settled ∧ RegionTable.Refilled p.objs h.table t
        ∧ out = (h'.summary p maximum number marked.objects used roots.weak,
          ⟨roots.strong.map p.redirect, roots.weak.map p.redirectWeak⟩) := by
  rw [finish, runs_bind, runs_report]
  have hc₁ := hc.withLog
  refine Runs.bind (adjustStrongRoots_runs hp (hc₁ _).serves hknown) fun out h₁ => ?_
  obtain ⟨strong, _⟩ := out
  rintro ⟨rfl, t, rfl, hrefilled⟩
  have hc₂ := (hc₁ _).refill hrefilled
  refine Runs.bind (adjustWeakRoots_runs hp hc₂.serves roots.weak) fun out h₂ => ?_
  rintro ⟨rfl, t', rfl, hrefilled'⟩
  have hc₃ := hc₂.refill hrefilled'
  rw [runs_bind, runs_report]
  -- What is left after the check, whatever has been reported.
  have hmoves : ∀ log, Runs (do
      moveTops
      let h ← get
      let summary : CycleSummary :=
        { number, maximum, totals := p.totals
          spaces := (h.spaces.zip used).map fun (s, used) =>
            ⟨s.name, used, s.newTop, s.densePrefix, s.liveWords⟩
          liveObjects := marked.objects
          weakCleared := roots.weak.countP p.Clears }
      (Collector.cycleRecords summary (h.spaces.map (·.bottom)) marked).forM report
      pure (summary, (⟨roots.strong.map p.redirect, roots.weak.map p.redirectWeak⟩ : Roots)))
      { h with table := t', log } fun out h' => ∃ t log,
        h' = { h with table := t, log }.settled ∧ RegionTable.Refilled p.objs h.table t
          ∧ out = (h'.summary p maximum number marked.objects used roots.weak,
            ⟨roots.strong.map p.redirect, roots.weak.map p.redirectWeak⟩) := fun log => by
    refine (moveTops_runs (hc₃.serves.withLog log) hp.toValid).bind fun _ h₄ => ?_
    rintro rfl
    rw [runs_bind, runs_get]
    refine runs_forM_report.bind fun _ h₅ => ?_
    rintro ⟨log', rfl⟩
    exact runs_pure.2 ⟨t', log', rfl, hrefilled.trans hrefilled', rfl⟩
  cases hverify : s.verify
  · exact hmoves _
  · rw [if_pos rfl]
    refine (checkResult_runs (hc₃.withLog _) hp hsound hused).bind fun _ h₄ => ?_
    rintro ⟨log, rfl⟩
    exact hmoves log

/-! ## The plan of a well-formed heap -/

namespace WellFormed

variable (hw : h.WellFormed zones objects)
include hw

lemma spaces_length : h.spaces.length = zones.length := by
  obtain ⟨_, ho⟩ := hw.orderly
  exact ho.spaces_over.length_eq

omit hw in
/-- A zone of the plan is one of the heap, with a dense prefix. -/
lemma plan_zone_at (hz : (h.plan zones objects strong limiter maximum).zones[i]? = some z') :
    ∃ z s, zones[i]? = some z ∧ h.spaces[i]? = some s ∧ z' = { z with
      keep := z.chosen h.covered h.table.geometry
        (h.live objects strong) s.deadRatio limiter maximum } := by
  rw [plan, planZones, List.getElem?_zipWith_eq_some] at hz
  obtain ⟨deadRatio, z, hratio, hz, rfl⟩ := hz
  rw [List.getElem?_map, Option.map_eq_some_iff] at hratio
  obtain ⟨s, hs, rfl⟩ := hratio
  exact ⟨z, s, hz, hs, rfl⟩

lemma plan_zones_length :
    (h.plan zones objects strong limiter maximum).zones.length = zones.length := by
  rw [plan, planZones, List.length_zipWith, List.length_map, hw.spaces_length, min_self]

/-- The spaces of the plan are those of the heap. -/
lemma plan_inSpace_iff :
    (h.plan zones objects strong limiter maximum).InSpace a ↔ h.isInSpace a = true := by
  rw [hw.isInSpace_iff]
  constructor
  · rintro ⟨z', hz', hbounds⟩
    obtain ⟨j, hj⟩ := List.mem_iff_getElem?.1 hz'
    obtain ⟨z, _, hz, _, rfl⟩ := plan_zone_at hj
    exact ⟨z, List.mem_of_getElem? hz, hbounds⟩
  · rintro ⟨z, hz, hbounds⟩
    obtain ⟨j, hj, rfl⟩ := List.mem_iff_getElem.1 hz
    have hlt : j < (h.plan zones objects strong limiter maximum).zones.length :=
      hw.plan_zones_length ▸ hj
    obtain ⟨z, _, hz, _, heq⟩ := plan_zone_at (List.getElem?_eq_getElem hlt)
    rw [List.getElem?_eq_getElem hj, Option.some.injEq] at hz
    refine ⟨_, List.getElem_mem hlt, ?_⟩
    rw [heq, ← hz]
    exact hbounds

/-- How many words the spaces use. -/
lemma usedWords_eq :
    h.spaces.map Space.usedWords = (h.plan zones objects strong limiter maximum).zones.map fun z =>
    z.top - z.first * (h.plan zones objects strong limiter maximum).regionWords := by
  obtain ⟨_, ho⟩ := hw.orderly
  refine List.ext_getElem
    (by rw [List.length_map, List.length_map, hw.spaces_length, hw.plan_zones_length])
      fun j h1 h2 => ?_
  rw [List.getElem_map, List.getElem_map]
  rw [List.length_map] at h1 h2
  obtain ⟨z, s, hz, hs, heq⟩ := plan_zone_at (List.getElem?_eq_getElem h2)
  obtain ⟨hj, rfl⟩ := List.getElem?_eq_some_iff.1 hz
  have hover := ho.spaces_over.get h1 hj
  simp only [List.get_eq_getElem] at hover
  rw [heq, Space.usedWords, hover.top, hover.bottom, Extent.addr_eq, Extent.addr_eq, bytesPerWord]
  show _ = zones[j].top - zones[j].first * h.table.geometry.regionWords
  omega

variable (hpoints : ∀ a ∈ strong, h.Points objects.flatten a)
include hpoints

/-- Some heap is ready to be compacted by the plan. -/
lemma plan_begins (limiter : Limiter) (maximum : Bool) :
    ∃ h₁, (h.plan zones objects strong limiter maximum).Begins h₁ := by
  obtain ⟨_, h₁, _, _, hbegins, _⟩ := hw.prepare_runs hpoints limiter maximum 0
  exact ⟨h₁, hbegins⟩

lemma plan_fits (limiter : Limiter) (maximum : Bool) :
    (h.plan zones objects strong limiter maximum).FitsMemory := by
  obtain ⟨_, hbegins⟩ := hw.plan_begins hpoints limiter maximum
  exact hbegins.fits

lemma plan_sound (limiter : Limiter) (maximum : Bool) :
    (h.plan zones objects strong limiter maximum).Sound := by
  obtain ⟨_, hbegins⟩ := hw.plan_begins hpoints limiter maximum
  exact hbegins.sound

/-- The strong roots are known to the plan. -/
lemma plan_known (ha : a ∈ strong) : (h.plan zones objects strong limiter maximum).Known a :=
  fun hin => by
  obtain ⟨o, ho, rfl⟩ := hpoints a ha (hw.plan_inSpace_iff.1 hin)
  have hlive : o ∈ h.live objects strong := mem_live.2 (.root ho ha)
  exact ⟨o.start, rfl,
    live_of_mem (List.mem_append_right _ hlive) (Span.covers_start (hw.separate.words_pos o ho))⟩

/-! ## A whole cycle -/

/-- A cycle on a well-formed heap succeeds, and carries out the plan. -/
theorem runCycle_runs {s : Settings} {roots : Roots} (hstrong : roots.strong = strong)
    (hworkers : 0 < s.workers) (hmany : s.workers * max s.prefixTasksPerWorker 1 < wordValues)
    (number : ℕ) :
    Runs (Collector.runCycle s limiter maximum number roots) h fun out h' => ∃ h₁,
      (h.plan zones objects strong limiter maximum).Compacted h₁ ∧ h.Tallies h₁ zones
        (h.live objects strong)
        ∧ h' = h₁.settled
        ∧ out = (h'.summary (h.plan zones objects strong limiter maximum) maximum number
          (h.live objects strong).length
            (h.spaces.map Space.usedWords) roots.weak,
          ⟨strong.map (h.plan zones objects strong limiter maximum).redirect,
            roots.weak.map (h.plan zones objects strong limiter maximum).redirectWeak⟩) := by
  subst hstrong
  have hfits := hw.plan_fits hpoints limiter maximum
  have hsound := hw.plan_sound hpoints limiter maximum
  rw [runCycle_eq]
  refine (hw.prepare_runs hpoints limiter maximum number).bind fun out h₁ => ?_
  rintro ⟨rfl, hbegins, htallies⟩
  refine (hbegins.compact_runs hworkers hmany).bind fun totals h₂ => ?_
  rintro ⟨tasks, hdivides, _, hcompacts⟩
  obtain ⟨hcompacted, hinfos, rfl⟩ := hbegins.compacted hdivides hcompacts
  refine (finish_runs hcompacted hfits hsound
    (fun a ha => hw.plan_known hpoints ha) hw.usedWords_eq s number _).mono
    fun out h' => ?_
  rintro ⟨t, log, rfl, hrefilled, rfl⟩
  refine ⟨{ h₂ with table := t, log }, (hcompacted.refill hrefilled).withLog log,
    fun j s s' z hs hs' hz => ?_, rfl, rfl⟩
  -- Compaction changes the start tables of the spaces only.
  have hinfo : (h₂.infos)[j]? = some s'.info := by
    rw [infos, List.getElem?_map]
    exact congrArg _ hs'
  rw [hinfos, infos, List.getElem?_map, Option.map_eq_some_iff] at hinfo
  obtain ⟨s₁, hs₁, heq⟩ := hinfo
  have htallied := htallies j s s₁ z hs hs₁ hz
  have hof : ∀ {α : Type} (f : Space → α), f s₁.info = f s'.info := fun f => congrArg f heq
  exact ⟨(hof Space.name).symm.trans htallied.name,
    (hof Space.deadRatio).symm.trans htallied.deadRatio,
    (hof Space.liveWords).symm.trans htallied.liveWords,
    (hof Space.liveObjects).symm.trans htallied.liveObjects⟩

end WellFormed

end Heap

/-! ## After the cycle -/

/-- The zone after a cycle: its top is the new top, and it has no dense prefix any more. -/
def Zone.settled (z : Zone) (W : ℕ) (objs : List Span) : Zone :=
  { z with keep := z.first, top := z.newTop W objs }

namespace Plan.Compacted

variable {h : Heap MemoryImage} (hc : p.Compacted h) (hp : p.Valid)
include hc hp

/-- The next cycle can start from what a cycle leaves. -/
theorem orderly : h.settled.Orderly p.objs
    (p.zones.map fun z => z.settled p.regionWords p.objs) where
  consistent := { hc.serves.consistent with }
  spaces_over := by
    show List.Forall₂ (fun s z => s.Over h.table.covered h.table.geometry.regionWords z)
      (h.spaces.map Space.settled) _
    rw [hc.serves.loaded.covered, hc.serves.loaded.regionWords_eq]
    refine List.forall₂_map_left_iff.2 (List.forall₂_map_right_iff.2
      (hc.serves.spaces.imp fun s z hmatches => ?_))
    exact ⟨hmatches.bottom, hmatches.limit, hmatches.newTop, hmatches.starts⟩
  ordered z hz := by
    obtain ⟨z, hmem, rfl⟩ := List.mem_map.1 hz
    have hord := hp.ordered z hmem
    have htop := hord.newTop_le p.objs
    have hkeep : z.keep * p.regionWords ≤ z.newTop p.regionWords p.objs := z.le_packed ..
    have hfirst := Nat.mul_le_mul_right p.regionWords hord.first_le_keep
    have hlast := hord.top_le_last
    show (z.settled p.regionWords p.objs).Ordered h.table.geometry.regionWords h.table.covered.words
    rw [hc.serves.loaded.covered, hc.serves.loaded.regionWords_eq]
    exact ⟨hord.first_lt_last, le_rfl, hfirst.trans hkeep, htop.trans hlast, hord.last_le⟩
  keep_eq z hz := by
    obtain ⟨z, _, rfl⟩ := List.mem_map.1 hz
    rfl
  apart := List.pairwise_map.2 hp.apart
  encloses o ho := by
    obtain ⟨z, hz, hholds⟩ := hp.holds o ho
    refine ⟨_, List.mem_map_of_mem hz, ?_⟩
    show (z.settled p.regionWords p.objs).Encloses h.table.geometry.regionWords o
    rw [hc.serves.loaded.regionWords_eq]
    exact hholds.encloses (hp.ordered z hz)
  outside r hr := hc.serves.loaded.outside r fun z hz hin => hr _ (List.mem_map_of_mem hz) hin

end Plan.Compacted

end MarkCompact
