import MarkCompact.Proofs.Compacted
import MarkCompact.Proofs.Cycles
import MarkCompact.Proofs.FirstClaims

/-!
# Compacting in any order

`h.CompactsBy tasks totals h'` says that the heap `h` can be compacted to `h'`: dense prefixes are
divided into `tasks`, the tasks and the claimed regions are worked off in some order until none is
left, and then the objects that were split are updated.  `compact` is one such order.

Main statements: `Begins.compacted` (every order carries the plan out), `Begins.exists_compacts`
(none gets stuck), `Begins.compact_runs` (that of `compact` in particular) and
`compaction_deterministic` (all of them come to the same).
-/

namespace MarkCompact

variable {p : Plan} {tasks : List PrefixTask} {z : Zone} {r : ℕ}

/-! ## From stage to stage -/

/-- Nothing waits any more. -/
structure Stage.Idle {μ : Type} (s : Stage μ) : Prop where
  queued : s.queued = []
  tasks : s.tasks = []

namespace Upkeep.Tracks

variable {μ : Type} [ObjectModel μ] {K : Upkeep μ p} {s : Stage μ}

/-- Only destinations are filled, each at most once. -/
lemma filled_length_le (htracks : K.Tracks tasks s) (hp : p.Valid) :
    s.filled.length ≤ p.receivers.length := by
  refine ((List.nodup_append.1 htracks.nodup).1.subperm fun r hr => hp.mem_receivers.2 ?_).length_le
  exact ((htracks.mem_claimed r).1 (List.mem_append_left _ hr)).receives

/-- Running the tasks one at a time is one way to go from stage to stage until nothing waits. -/
theorem runTasks_leads (fuel : ℕ) (htracks : K.Tracks tasks s) (hp : p.Valid)
    (hdivides : p.Divides tasks)
    (hfuel : p.receivers.length + s.tasks.length < fuel + s.filled.length) :
    Heap.Leads K.may (Heap.runTasks fuel s.queued s.tasks s.totals) s.heap fun totals h' =>
      ∃ s' : Stage μ,
      Relation.ReflTransGen Stage.Step s s' ∧ s'.Idle ∧ s'.heap = h' ∧ s'.totals = totals := by
  induction fuel generalizing s with
  | zero =>
    have := htracks.filled_length_le hp
    omega
  | succ fuel ih =>
    obtain ⟨heap, queued, waiting, filled, ran, totals⟩ := s
    match queued, waiting with
    | r :: regions, waiting =>
      have hr : r ∈ r :: regions := List.mem_cons_self
      rw [Heap.runTasks, Heap.leads_bind]
      refine (htracks.fill hp hdivides hr).with_eq.mono fun out h' => ?_
      rintro ⟨htracks', heq⟩
      have hnext := ih htracks' (by simp only [Stage.fill, List.length_cons] at hfuel ⊢; omega)
      simp only [Stage.fill, List.erase_cons_head] at hnext
      refine hnext.mono fun totals' h'' => ?_
      rintro ⟨s', hsteps, hrest⟩
      refine ⟨s', hsteps.head ?_, hrest⟩
      have hstep := Stage.Step.fill (s := ⟨heap, r :: regions, waiting, filled, ran, totals⟩) hr heq
      simpa only [Stage.fill, List.erase_cons_head] using hstep
    | [], task :: waiting =>
      have htask : task ∈ task :: waiting := List.mem_cons_self
      rw [Heap.runTasks, Heap.leads_bind]
      refine (htracks.update hp hdivides htask).with_eq.mono fun _ h' => ?_
      rintro ⟨htracks', heq⟩
      have hnext :=
        ih htracks' (by
          simp only [Stage.update, List.erase_cons_head, List.length_cons] at hfuel ⊢; omega)
      simp only [Stage.update, List.erase_cons_head] at hnext
      refine hnext.mono fun totals' h'' => ?_
      rintro ⟨s', hsteps, hrest⟩
      refine ⟨s', hsteps.head ?_, hrest⟩
      have hstep :=
        Stage.Step.update (s := ⟨heap, [], task :: waiting, filled, ran, totals⟩) htask heq
      simpa only [Stage.update, List.erase_cons_head] using hstep
    | [], [] =>
      rw [Heap.runTasks]
      exact ⟨_, .refl, ⟨rfl, rfl⟩, rfl, rfl⟩

/-- What is reported does not matter. -/
lemma withLog (htracks : K.Tracks tasks s) (log : List LogRecord) :
    K.Tracks tasks { s with heap := { s.heap with log } } := by
  obtain ⟨⟨g, hg⟩, hcounted, hkeeps⟩ := htracks.rests
  exact { htracks with rests := ⟨⟨g, { hg with holds := K.withLog hg.holds }⟩, hcounted, hkeeps⟩ }

end Upkeep.Tracks

/-! ## From the first claim to the last update -/

namespace Heap

variable {μ : Type} [ObjectModel μ]

/-- The heap can be compacted to another one, with some totals: the first regions are claimed, what
waits is worked off in some order, and the objects that were split are updated. -/
inductive CompactsBy (tasks : List PrefixTask) (h : Heap μ) : CompactTotals → Heap μ → Prop
  | intro {queued : List ℕ} {h₀ h' : Heap μ} {log : List LogRecord} {s : Stage μ} {deferred : ℕ}
      (claims : claimReadySpaces h.spaces.reverse [] h = .ok (queued, h₀))
      (steps : Relation.ReflTransGen Stage.Step { heap := { h₀ with log }, queued, tasks } s)
      (idle : s.Idle) (last : updateDeferred s.heap.spaces 0 0 s.heap = .ok (deferred, h')) :
      CompactsBy tasks h { s.totals with deferredObjects := deferred } h'

/-- The heap can be compacted to another one by some workers. -/
def Compacts (workers tasksPerWorker : ℕ) (h : Heap μ) (totals : CompactTotals)
    (h' : Heap μ) : Prop :=
  ∃ tasks, h.prefixTasks workers tasksPerWorker = .ok tasks ∧ h.CompactsBy tasks totals h'

end Heap

/-- When nothing waits any more, the objects that were split are updated, and then the plan has been
carried out. -/
lemma Upkeep.Tracks.updateDeferred_runs {hp : p.FitsMemory} {hsound : p.Sound} {infos : List Space}
    {s : Stage MemoryImage}
    (htracks : ((p.memoryUpkeep hp hsound).framed hp.toValid infos).Tracks tasks s)
    (hdivides : p.Divides tasks) (hidle : s.Idle) (hstart : 0 < p.covered.start) :
    Heap.Runs (Heap.updateDeferred s.heap.spaces 0 0) s.heap fun deferred h' =>
      p.Compacted h' ∧ h'.infos = infos
        ∧ { s.totals with deferredObjects := deferred } = p.totals := by
  have hvalid := hp.toValid
  have hrests := htracks.rests
  rw [htracks.done_eq hvalid hdivides hidle.queued hidle.tasks] at hrests
  have hlead :=
    (Heap.updateDeferred_leads hvalid hstart p.complete_finished hrests).runs fun _ => id
  refine hlead.mono fun deferred h' => ?_
  rintro ⟨late, hfinishes, rfl⟩
  obtain ⟨hcompacted, hinfos⟩ := hfinishes.compacted
  refine ⟨hcompacted, hinfos,
    htracks.totals_eq hvalid hdivides hidle.queued hidle.tasks hfinishes.nodup (fun o => ?_)
    hvalid.separate.nodup⟩
  rw [hfinishes.mem_late]
  exact ⟨fun h => ⟨h.1, h.2.1⟩, fun h => ⟨h.1, h.2, h.2.receives hvalid h.1⟩⟩

namespace Plan.Begins

variable {h : Heap MemoryImage} (hb : p.Begins h)
include hb

lemma start_pos : 0 < p.covered.start :=
  lt_of_lt_of_le (by decide) hb.fits.base_le

/-- The first claims lead to a stage from which compaction keeps track. -/
lemma claimFirst_runs (tasks : List PrefixTask) :
    Heap.Runs (Heap.claimReadySpaces h.spaces.reverse []) h fun queued h' => ∀ log,
      ((p.memoryUpkeep hb.fits hb.sound).framed hb.fits.toValid h.infos).Tracks tasks
        { heap := { h' with log }, queued, tasks } :=
  (Heap.claimFirst_runs ((p.memoryUpkeep_closesHoles hb.fits hb.sound).framed hb.fits.toValid
    h.infos) hb.toUnbegun hb.fits.toValid
    hb.reaches tasks).mono fun _ _ htracks log => htracks.2.withLog log

/-- Every order of work carries the plan out. -/
theorem compacted {totals : CompactTotals} {h' : Heap MemoryImage} (hdivides : p.Divides tasks)
    (hc : h.CompactsBy tasks totals h') :
    p.Compacted h' ∧ h'.infos = h.infos ∧ totals = p.totals := by
  obtain ⟨hclaims, hsteps, hidle, hlast⟩ := hc
  have htracks := (hb.claimFirst_runs tasks).of_eq hclaims
  have hrun :=
    ((htracks _).reach hb.fits.toValid hdivides hsteps).updateDeferred_runs hdivides hidle
      hb.start_pos
  exact hrun.of_eq hlast

/-- However the dense prefixes are divided and whatever has been done, the work can be brought to an
end. -/
theorem exists_compacts {queued : List ℕ} {h₀ : Heap MemoryImage} {s : Stage MemoryImage}
    (log : List LogRecord) (hdivides : p.Divides tasks)
    (hclaims : Heap.claimReadySpaces h.spaces.reverse [] h = .ok (queued, h₀))
    (hsteps : Relation.ReflTransGen Stage.Step { heap := { h₀ with log }, queued, tasks } s) :
    ∃ s' deferred h', Relation.ReflTransGen Stage.Step s s' ∧ s'.Idle
      ∧ Heap.updateDeferred s'.heap.spaces 0 0 s'.heap = .ok (deferred, h') := by
  have htracks := (hb.claimFirst_runs tasks).of_eq hclaims
  have htracks' := (htracks log).reach hb.fits.toValid hdivides hsteps
  obtain ⟨_, _, _, s', hsteps', hidle, _, _⟩ := (htracks'.runTasks_leads
    (p.receivers.length + s.tasks.length + 1) hb.fits.toValid hdivides (by omega)).runs fun _ => id
  obtain ⟨deferred, h', heq, _⟩ :=
    (htracks'.reach hb.fits.toValid hdivides hsteps').updateDeferred_runs hdivides hidle
    hb.start_pos
  exact ⟨s', deferred, h', hsteps', hidle, heq⟩

/-- There are no more destinations than regions. -/
lemma receivers_length_le : p.receivers.length ≤ h.geometry.regionCount := by
  have hp := hb.fits.toValid
  have hsub : p.receivers ⊆ List.range h.geometry.regionCount := fun r hr => by
    obtain ⟨z, hz, hreceives⟩ := hp.mem_receivers.1 hr
    rw [List.mem_range, hb.serves.geometry, ← hb.serves.loaded.geometry]
    exact hb.serves.loaded.region_lt hp hz (hreceives.lt_last (hp.ordered z hz))
  have hle := ((List.nodup_range.filter _).subperm hsub).length_le
  rwa [List.length_range] at hle

/-- Compacting one task after the other is one order of work. -/
theorem compact_runs {workers tasksPerWorker : ℕ} (hworkers : 0 < workers)
    (hmany : workers * max tasksPerWorker 1 < wordValues) :
    Heap.Runs (Heap.compact workers tasksPerWorker) h fun totals h' => ∃ tasks, p.Divides tasks
      ∧ h.prefixTasks workers tasksPerWorker = .ok tasks ∧ h.CompactsBy tasks totals h' := by
  have hp := hb.fits.toValid
  obtain ⟨tasks, heq, hdivides⟩ := Heap.prefixTasks_eq hb.toUnbegun hp hworkers hmany
  obtain ⟨queued, h₀, hclaims, htracks⟩ := hb.claimFirst_runs tasks
  have hclaimed : Heap.Runs (Heap.claimReadySpaces h.spaces.reverse []) h fun a h' =>
      a = queued ∧ h' = h₀ :=
    ⟨queued, h₀, hclaims, rfl, rfl⟩
  rw [Heap.compact, Heap.runs_bind, Heap.runs_get, heq, Heap.runs_bind, Heap.runs_check_ok]
  refine hclaimed.bind ?_
  rintro _ _ ⟨rfl, rfl⟩
  rw [Heap.runs_bind, Heap.runs_report]
  have hfuel : p.receivers.length + tasks.length < h.geometry.regionCount + tasks.length + 1 := by
    have := hb.receivers_length_le
    omega
  refine Heap.Runs.bind
    (((htracks _).runTasks_leads (h.geometry.regionCount + tasks.length + 1) hp hdivides hfuel).runs
    fun _ => id) fun totals h₁ => ?_
  rintro ⟨s, hsteps, hidle, rfl, rfl⟩
  rw [Heap.runs_bind, Heap.runs_get]
  have hlast :=
    ((htracks _).reach hp hdivides hsteps).updateDeferred_runs hdivides hidle hb.start_pos
  obtain ⟨deferred, h', heq', _⟩ := hlast
  rw [Heap.runs_bind]
  refine ⟨deferred, h', heq', ?_⟩
  simp only [Heap.runs_pure]
  exact ⟨tasks, hdivides, rfl, .intro hclaims hsteps hidle heq'⟩

end Plan.Begins

namespace Heap

/-- The heaps hold the same words and have the same spaces, the starts that these have recorded
included, and the same regions of them are completed. -/
structure SameResult (h h' : Heap MemoryImage) : Prop where
  words : ∀ w, h'.image.word h.covered w = h.image.word h.covered w
  infos : h'.infos = h.infos
  starts : ∀ (i : ℕ) (s s' : Space), h.spaces[i]? = some s → h'.spaces[i]? = some s' → ∀ card,
    s'.starts.recorded? card = s.starts.recorded? card
  completed : ∀ s ∈ h.spaces, ∀ r, s.bottom ≤ h.table.regionStart r →
    h.table.regionStart r < s.limit →
    (h'.table.regions.get r).isCompleted = (h.table.regions.get r).isCompleted

end Heap

/-- Two heaps in which one plan has been carried out are the same. -/
lemma Plan.Compacted.sameResult {h h' : Heap MemoryImage} (hc : p.Compacted h)
    (hc' : p.Compacted h') (hinfos : h'.infos = h.infos) : h.SameResult h' where
  words w := by
    rw [hc.serves.covered]
    exact hc.word_eq hc' w
  infos := hinfos
  starts _ _ _ hs hs' := (hc.recorded_eq hc' hs hs').2
  completed s hs r h1 h2 := by
    obtain ⟨i, hi⟩ := List.mem_iff_getElem?.1 hs
    obtain ⟨z, hz, hmatches⟩ := hc.serves.exists_zone hi
    have hmem := List.mem_of_getElem? hz
    rw [hc.serves.regionStart_eq] at h1 h2
    rw [hmatches.bottom, Extent.addr_le_addr] at h1
    rw [hmatches.limit, Extent.addr_lt_addr] at h2
    have hfirst := Nat.le_of_mul_le_mul_right h1 p.regionWords_pos
    have hlast := Nat.lt_of_mul_lt_mul_right h2
    exact Bool.eq_iff_iff.2
      ((hc'.completed z hmem r hfirst hlast).trans (hc.completed z hmem r hfirst hlast).symm)

namespace Heap

variable {h : Heap MemoryImage} {workers workers' tasksPerWorker tasksPerWorker' : ℕ}

/-- However many workers compact a heap whose plan is fixed, and in whatever order they take their
work, the result is the same: compaction succeeds, which is one such order, and any two of them
agree. -/
theorem compaction_deterministic (hb : p.Begins h) (hworkers : 0 < workers)
    (hmany : workers * max tasksPerWorker 1 < wordValues) (hworkers' : 0 < workers')
    (hmany' : workers' * max tasksPerWorker' 1 < wordValues) :
    Runs (compact workers tasksPerWorker) h (h.Compacts workers tasksPerWorker)
      ∧ ∀ totals h₁ totals' h₂, h.Compacts workers tasksPerWorker totals h₁ →
        h.Compacts workers' tasksPerWorker' totals' h₂ →
        totals' = totals ∧ h₁.SameResult h₂ := by
  refine ⟨(hb.compact_runs hworkers hmany).mono fun totals h' => ?_, ?_⟩
  · rintro ⟨tasks, _, heq, hcompacts⟩
    exact ⟨tasks, heq, hcompacts⟩
  · rintro totals h₁ totals' h₂ ⟨tasks₁, heq₁, hcompacts₁⟩ ⟨tasks₂, heq₂, hcompacts₂⟩
    obtain ⟨tasks₁', heq₁', hdivides₁⟩ := prefixTasks_eq hb.toUnbegun hb.fits.toValid hworkers hmany
    obtain ⟨tasks₂', heq₂', hdivides₂⟩ :=
      prefixTasks_eq hb.toUnbegun hb.fits.toValid hworkers' hmany'
    cases heq₁.symm.trans heq₁'
    cases heq₂.symm.trans heq₂'
    obtain ⟨hcompacted₁, hinfos₁, htotals₁⟩ := hb.compacted hdivides₁ hcompacts₁
    obtain ⟨hcompacted₂, hinfos₂, htotals₂⟩ := hb.compacted hdivides₂ hcompacts₂
    exact ⟨htotals₂.trans htotals₁.symm,
      hcompacted₁.sameResult hcompacted₂ (hinfos₂.trans hinfos₁.symm)⟩

/-- One worker, or two with three tasks each, compact the example heap. -/
theorem compaction_deterministic_linked :
    ∃ p : Plan, ∃ out h₁, prepare (.ofPercent 50 80) false 1 [64] linked = .ok (out, h₁)
    ∧ p.Begins h₁ ∧ 1 * max 0 1 < wordValues ∧ 2 * max 3 1 < wordValues
    ∧ Runs (compact 1 0) h₁ (h₁.Compacts 1 0)
    ∧ ∀ totals h₂ totals' h₃, h₁.Compacts 1 0 totals h₂ → h₁.Compacts 2 3 totals' h₃ →
      totals' = totals ∧ h₂.SameResult h₃ := by
  obtain ⟨out, h₁, heq, _, hb, _⟩ :=
    linked_wellFormed.prepare_runs linked_root (.ofPercent 50 80) false 1
  exact ⟨_, out, h₁, heq, hb, by decide, by decide,
    compaction_deterministic hb (by decide) (by decide) (by decide) (by decide)⟩

end Heap

end MarkCompact
