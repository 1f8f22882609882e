import MarkCompact.Proofs.Preparing

/-!
# Before compaction

A cycle clears the side tables, marks from the strong roots and plans; then the spaces are
compacted, roots are adjusted and the tops moved.  `prepare` is the part in front of compaction and
`finish` the part behind it.

What `prepare` decides depends on the memory, the tops and the settings, and on nothing that an
earlier cycle has left behind: `Heap.plan` is the plan.

Main statements: `runCycle_eq` (a cycle is made of these parts) and `WellFormed.prepare_runs` (in a
well-formed heap preparing succeeds, and what it leaves is ready to be compacted as planned).
-/

namespace MarkCompact

variable {zones : List Zone} {objects : List (List Span)} {strong : List ℕ} {o : Span} {x : ℕ}

namespace Heap

/-! ## The parts of a cycle -/

section

variable {μ : Type} [ObjectModel μ]

/-- Clears the side tables, marks and plans.  The answer is how many words the spaces used and what
was marked. -/
def prepare (limiter : Limiter) (maximum : Bool) (number : ℕ) (strong : List ℕ) :
    HeapAction μ (List ℕ × MarkTotals) := do
  report ⟨.collector, .debug, s!"GC({number}) start, maximum compaction: {maximum}"⟩
  let h ← get
  let usedBefore := h.spaces.map Space.usedWords
  set { h with updates := [] }
  (List.range h.spaces.length).forM clearSpace
  let marked ← markLive strong
  report ⟨.marking, .debug,
    s!"marking done in _ ms: {marked.objects} objects, {showBytes (marked.words * bytesPerWord)}"⟩
  planSpaces limiter maximum
  report ⟨.compaction, .debug, "summary done in _ ms"⟩
  pure (usedBefore, marked)

/-- Adjusts the roots, checks the result and moves the tops. -/
def finish (s : Settings) (maximum : Bool) (number : ℕ) (roots : Roots) (usedBefore : List ℕ)
    (marked : MarkTotals) (totals : CompactTotals) : HeapAction μ (CycleSummary × Roots) := do
  report ⟨.compaction, .debug,
    s!"compaction done in _ ms: {totals.regionsFilled} regions filled, {
      totals.prefixRegions} dense prefix regions, {totals.wordsCopied} words copied, {
      totals.deferredObjects} deferred"⟩
  let (strong, _) ← adjustRoots .root roots.strong [] 0
  let (weak, cleared) ← adjustRoots .weak roots.weak [] 0
  report ⟨.compaction, .debug,
    s!"root adjustment done in _ ms, {cleared} weak root(s) cleared"⟩
  if s.verify then checkResult usedBefore
  moveTops
  let h ← get
  let summary : CycleSummary :=
    { number, maximum, totals
      spaces := (h.spaces.zip usedBefore).map fun (s, used) =>
        ⟨s.name, used, s.newTop, s.densePrefix, s.liveWords⟩
      liveObjects := marked.objects
      weakCleared := cleared }
  (Collector.cycleRecords summary (h.spaces.map (·.bottom)) marked).forM report
  pure (summary, ⟨strong, weak⟩)

/-- A cycle prepares, compacts and finishes. -/
theorem runCycle_eq (s : Settings) (limiter : Limiter) (maximum : Bool) (number : ℕ)
    (roots : Roots) :
    Collector.runCycle (μ := μ) s limiter maximum number roots = (do
      let (usedBefore, marked) ← prepare limiter maximum number roots.strong
      let totals ← compact s.workers s.prefixTasksPerWorker
      finish s maximum number roots usedBefore marked totals) := by
  cases hverify : s.verify <;>
    simp only [Collector.runCycle, Collector.runPhases, prepare, finish, hverify, bind_assoc,
      pure_bind, if_true, Bool.false_eq_true, if_false]

end

/-! ## What a cycle plans -/

open Classical in
/-- The objects that can be reached from the roots. -/
noncomputable def live (h : Heap MemoryImage) (objects : List (List Span)) (roots : List ℕ) :
    List Span :=
  objects.flatten.filter fun o => h.Reachable objects.flatten roots o

/-- The zones with the dense prefixes that are chosen for them. -/
noncomputable def planZones (h : Heap MemoryImage) (zones : List Zone) (live : List Span)
    (limiter : Limiter) (maximum : Bool) : List Zone :=
  List.zipWith (fun deadRatio z => { z with
    keep := z.chosen h.covered h.table.geometry live deadRatio limiter maximum })
    (h.spaces.map Space.deadRatio) zones

/-- The fillers that close the dense prefixes of some zones. -/
noncomputable def planFillers (h : Heap MemoryImage) (zones : List Zone) (live : List Span) :
    List Span :=
  zones.reverse.flatMap fun z => z.fillers h.table.geometry.regionWords 1 live

/-- The plan of a cycle. -/
noncomputable def plan (h : Heap MemoryImage) (zones : List Zone) (objects : List (List Span))
    (strong : List ℕ) (limiter : Limiter) (maximum : Bool) : Plan :=
  let live := h.live objects strong
  let zones := h.planZones zones live limiter maximum
  let fillers := h.planFillers zones live
  { covered := h.covered
    geometry := h.table.geometry
    objs := fillers ++ live
    zones
    memory := fun x => match fillers.find? fun o => o.start = x with
      | some o => MemoryImage.fillerHeader o.words
      | none => h.image.word h.covered x }

variable {h h' h₁ : Heap MemoryImage} {limiter : Limiter} {maximum : Bool}

lemma mem_live {roots : List ℕ} :
    o ∈ h.live objects roots ↔ h.Reachable objects.flatten roots o := by
  simp only [live, List.mem_filter, decide_eq_true_eq]
  exact and_iff_right_of_imp Reachable.mem

/-- Which objects are live depends on the memory. -/
lemma live_congr (hcovered : h'.covered = h.covered) (himage : h'.image = h.image) :
    h'.live objects strong = h.live objects strong :=
  List.filter_congr fun _ _ => decide_eq_decide.2 (reachable_congr hcovered himage)

/-- The plan depends on the memory, the zones and the ratios of dead space that are asked for, and
on nothing else. -/
lemma plan_congr (hcovered : h'.covered = h.covered) (himage : h'.image = h.image)
    (hgeometry : h'.table.geometry = h.table.geometry)
    (hratios : h'.spaces.map Space.deadRatio = h.spaces.map Space.deadRatio) :
    h'.plan zones objects strong limiter maximum = h.plan zones objects strong limiter maximum := by
  have hlive : h'.live objects strong = h.live objects strong := live_congr hcovered himage
  have hzones : ∀ os, h'.planZones zones os limiter maximum
      = h.planZones zones os limiter maximum := fun os => by
    rw [planZones, planZones, hcovered, hgeometry, hratios]
  have hfillers : ∀ zs os, h'.planFillers zs os = h.planFillers zs os := fun zs os => by
    rw [planFillers, planFillers, hgeometry]
  simp only [plan, hlive, hzones, hfillers, hcovered, himage, hgeometry]

/-- Planning leads to the plan. -/
lemma PlannedTo.planOf_eq_plan {fillers : List Span} {zones' : List Zone} {h₂ : Heap MemoryImage}
    (hp : h₁.PlannedTo limiter maximum h₂ h₁.spaces.length
      (h.live objects strong) fillers zones zones')
    (hm : h.MarkedTo h₁ zones objects strong (h.live objects strong))
    (hw : h.WellFormed zones objects) :
    h₂.planOf (fillers ++ h.live objects strong) zones'
      = h.plan zones objects strong limiter maximum := by
  have hcovered : h₁.table.covered = h.covered := by
    rw [← hm.marked.consistent.covered, hm.covered_eq]
  have htable : h₁.table = h.table := by
    obtain ⟨_, rfl⟩ := hm.bitmap
    rfl
  have hspaces : h₁.spaces = h.spaces := by
    obtain ⟨_, rfl⟩ := hm.bitmap
    rfl
  have hlength : h₁.spaces.length = zones.length := hm.marked.spaces_over.length_eq
  have hzones : zones' = h.planZones zones (h.live objects strong) limiter maximum := by
    refine List.ext_getElem
      (by
        rw [planZones, List.length_zipWith, List.length_map, ← hspaces, hp.length_eq,
          hlength, min_self])
      fun j h1 h2 => ?_
    have hlt : j < h₁.spaces.length := hlength ▸ hp.length_eq ▸ h1
    obtain ⟨z, hz, heq⟩ := hp.zone_at j _ (List.getElem?_eq_getElem h1)
    have hkeep :=
      hp.chosen j _ z _ hlt (List.getElem?_eq_getElem hlt) hz (List.getElem?_eq_getElem h1)
    obtain ⟨hj, rfl⟩ := List.getElem?_eq_some_iff.1 hz
    simp only [planZones, List.getElem_zipWith, List.getElem_map]
    rw [heq, hkeep, hcovered, htable]
    simp only [hspaces]
  have hfillers : fillers = h.planFillers zones' (h.live objects strong) := by
    have heq := hp.fillers_eq
    rw [hlength, ← hp.length_eq, List.take_length, htable] at heq
    exact heq
  obtain ⟨_, hheaders, hkept⟩ := hp.image_eq hm hw
  have hmemory : ∀ x, h₂.image.word h.covered x = match fillers.find? fun o => o.start = x with
      | some o => MemoryImage.fillerHeader o.words
      | none => h.image.word h.covered x := fun x => by
    cases hfind : fillers.find? fun o => o.start = x with
    | some o =>
      have hstart : o.start = x := by simpa using List.find?_some hfind
      rw [← hstart]
      exact hheaders o (List.mem_of_find?_eq_some hfind)
    | none => exact hkept x fun o ho heq => by simpa [heq] using List.find?_eq_none.1 hfind o ho
  rw [planOf, plan, ← hzones, ← hfillers, hp.shape.covered, hp.shape.geometry, hcovered, htable]
  congr 1
  exact funext hmemory

/-! ## Preparing -/

/-- The spaces of the second heap are those of the first with the live objects of their zones
counted. -/
def Tallies (h h' : Heap MemoryImage) (zones : List Zone) (live : List Span) : Prop :=
  ∀ (j : ℕ) (s s' : Space) (z : Zone), h.spaces[j]? = some s → h'.spaces[j]? = some s' →
    zones[j]? = some z →
    s.Tallied s' h.table.geometry.regionWords live z

/-- In a well-formed heap that was cleared exactly the live objects are marked. -/
lemma WellFormed.marks (hw : h.WellFormed zones objects) (hm : h.Unplanned [] zones)
    (hpoints : ∀ a ∈ strong, h.Points objects.flatten a) :
    Runs (markLive strong) h fun totals h' => h.MarkedTo h' zones objects strong
      (h.live objects strong)
      ∧ totals = ⟨(h.live objects strong).length,
        ((h.live objects strong).map Span.words).sum⟩ := by
  refine (markLive_runs hw hm hpoints).mono fun totals h' => ?_
  rintro ⟨objs, hmarked, hmem, rfl⟩
  have hperm : objs.Perm (h.live objects strong) :=
    (List.perm_ext_iff_of_nodup hmarked.marked.consistent.marks.separate.nodup
      (hw.separate.nodup.filter _)).2 fun o =>
      (hmem o).trans mem_live.symm
  exact ⟨hmarked.perm hperm, by rw [hperm.length_eq, (hperm.map _).sum_eq]⟩

/-- Planning a heap in which the live objects are marked makes it ready to be compacted. -/
lemma WellFormed.plans (hw : h.WellFormed zones objects)
    (hm : h.MarkedTo h₁ zones objects strong (h.live objects strong)) (hupdates : h.updates = [])
    (hstarts : ∀ s ∈ h.spaces, s.starts = .unrecorded s.starts.covered) (limiter : Limiter)
    (maximum : Bool) :
    Runs (planSpaces limiter maximum) h₁ fun _ h' =>
      (h.plan zones objects strong limiter maximum).Begins h' ∧ h.Tallies h' zones
        (h.live objects strong) := by
  refine (hm.marked.planSpaces_runs MemoryImage.closesGaps (fillersFit_one _ _ _) limiter
    maximum).mono fun _ h₂ => ?_
  rintro ⟨fillers, zones', hp⟩
  refine ⟨hp.planOf_eq_plan hm hw ▸ hp.begins hm hw (fun o => mem_live) hupdates hstarts,
    fun j s s' z hs hs' hz => ?_⟩
  have htable : h₁.table = h.table := by
    obtain ⟨_, rfl⟩ := hm.bitmap
    rfl
  have hspaces : h₁.spaces = h.spaces := by
    obtain ⟨_, rfl⟩ := hm.bitmap
    rfl
  have hlt : j < h₁.spaces.length := hspaces ▸ (List.getElem?_eq_some_iff.1 hs).1
  have hlt' : j < zones'.length := by
    rw [hp.length_eq, ← hm.marked.spaces_over.length_eq]; exact hlt
  have htallied := hp.tallied j s s' _ hlt (hspaces ▸ hs) hs' (List.getElem?_eq_getElem hlt')
  obtain ⟨z₀, hz₀, heq⟩ := hp.zone_at j _ (List.getElem?_eq_getElem hlt')
  cases hz.symm.trans hz₀
  rw [heq, htable] at htallied
  exact ⟨htallied.name, htallied.deadRatio, htallied.liveWords, htallied.liveObjects⟩

/-- Where nothing is marked, the tables are in order. -/
lemma Unplanned.orderly {μ : Type} {h : Heap μ} (hm : h.Unplanned [] zones) : h.Orderly [] zones :=
  { hm with encloses := fun _ ho => absurd ho List.not_mem_nil }

/-- In a well-formed heap that was cleared, marking and planning succeed, whatever is reported. -/
lemma WellFormed.marksPlans (hw : h.WellFormed zones objects) (hm : h.Unplanned [] zones)
    (hpoints : ∀ a ∈ strong, h.Points objects.flatten a) (hupdates : h.updates = [])
    (hstarts : ∀ s ∈ h.spaces, s.starts = .unrecorded s.starts.covered)
    (record : MarkTotals → LogRecord) (record' : LogRecord) (limiter : Limiter) (maximum : Bool)
    (used : List ℕ) :
    Runs (do
      let marked ← markLive strong
      report (record marked)
      planSpaces limiter maximum
      report record'
      pure (used, marked)) h fun out h' =>
    out = (used, ⟨(h.live objects strong).length, ((h.live objects strong).map Span.words).sum⟩)
      ∧ (h.plan zones objects strong limiter maximum).Begins h' ∧ h.Tallies h' zones
        (h.live objects strong) := by
  refine Runs.bind (hw.marks hm hpoints) fun totals h₁ => ?_
  rintro ⟨hmarked, rfl⟩
  rw [runs_bind, runs_report]
  generalize hlog : record _ :: h₁.log = log
  have hlive : ({ h with log } : Heap MemoryImage).live objects strong = h.live objects strong :=
    live_congr rfl rfl
  have hplan : ({ h with log } : Heap MemoryImage).plan zones objects strong limiter maximum
      = h.plan zones objects strong limiter maximum := plan_congr rfl rfl rfl rfl
  have hplans :=
    WellFormed.plans (hw.transfer (hm.orderly.withLog log) rfl rfl rfl)
      (hlive ▸ hmarked.withLog log) hupdates
    hstarts limiter maximum
  refine hplans.bind fun _ h₂ => ?_
  rintro ⟨hbegins, htallies⟩
  rw [hplan] at hbegins
  rw [hlive] at htallies
  rw [runs_bind, runs_report, runs_pure]
  exact ⟨rfl, hbegins.withLog _, htallies⟩

/-- In a well-formed heap preparing succeeds, and what it leaves is ready to be compacted. -/
theorem WellFormed.prepare_runs (hw : h.WellFormed zones objects)
    (hpoints : ∀ a ∈ strong, h.Points objects.flatten a) (limiter : Limiter) (maximum : Bool)
    (number : ℕ) :
    Runs (prepare limiter maximum number strong) h fun out h' =>
      out = (h.spaces.map Space.usedWords,
        ⟨(h.live objects strong).length, ((h.live objects strong).map Span.words).sum⟩)
      ∧ (h.plan zones objects strong limiter maximum).Begins h' ∧ h.Tallies h' zones
        (h.live objects strong) := by
  obtain ⟨old, horderly⟩ := hw.orderly
  rw [prepare, runs_bind, runs_report, runs_bind, runs_get, runs_bind, runs_set]
  have horderly₀ : ∀ log, Orderly { h with log, updates := [] } old zones := fun log =>
    { horderly with consistent := { horderly.consistent with } }
  refine Runs.bind (horderly₀ _).clearSpaces_runs fun _ h₁ => ?_
  rintro ⟨hunplanned, hframe, hshape, hspaces⟩
  have hspaces₁ : h₁.spaces = h.spaces.map Space.cleared := hspaces
  obtain ⟨hcovered, himage, hupdates⟩ : h₁.covered = h.covered ∧ h₁.image = h.image
      ∧ h₁.updates = [] := by
    obtain ⟨_, _, _, rfl⟩ := hframe
    exact ⟨rfl, rfl, rfl⟩
  have hgeometry : h₁.table.geometry = h.table.geometry := hshape.geometry
  have hw₁ := hw.transfer hunplanned.orderly hcovered himage hgeometry
  have hplan : h₁.plan zones objects strong limiter maximum
      = h.plan zones objects strong limiter maximum :=
    plan_congr hcovered himage hgeometry (by rw [hspaces₁, List.map_map]; rfl)
  have hlive : h₁.live objects strong = h.live objects strong := live_congr hcovered himage
  rw [← hplan, ← hlive]
  refine (hw₁.marksPlans hunplanned
    (fun a ha => (hw.points_congr hunplanned.orderly hcovered hgeometry).2 (hpoints a ha)) hupdates
    (fun s hs => ?_) (fun marked => _) _ limiter maximum _).mono fun out h₂ => ?_
  · obtain ⟨s₀, _, rfl⟩ := List.mem_map.1 (hspaces₁ ▸ hs)
    rfl
  · rintro ⟨rfl, hbegins, htallies⟩
    refine ⟨rfl, hbegins, fun j s s' z hs hs' hz => ?_⟩
    have hcleared : h₁.spaces[j]? = some s.cleared := by
      rw [hspaces₁, List.getElem?_map, hs, Option.map_some]
    have htallied := htallies j _ s' z hcleared hs' hz
    rw [hgeometry] at htallied
    exact ⟨htallied.name, htallied.deadRatio, htallied.liveWords, htallied.liveObjects⟩

end Heap

end MarkCompact
