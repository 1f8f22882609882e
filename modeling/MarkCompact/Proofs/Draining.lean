import MarkCompact.Proofs.Coordination

/-!
# Compaction comes to an end

Each destination waits for lower ones only, so as long as one of them is to be filled, the lowest of
those is claimed.  When none is claimed any more, all of them have been filled, each once, and the
regions above them have been drained.

Main statements: `Tracks.drains` (what holds of every stage) and `compaction_drains` (from planning
on, in every schedule).
-/

namespace MarkCompact

variable {p : Plan} {tasks : List PrefixTask} {D r : ℕ}

/-- Region `r` lies behind the dense prefix of its space and reaches below the new top: it is a
destination. -/
def Heap.IsDestination {μ : Type} (h : Heap μ) (r : ℕ) : Prop :=
  ∃ s ∈ h.spaces, s.densePrefix ≤ h.table.regionStart r ∧ h.table.regionStart r < s.newTop

/-- Region `r` lies between the new top and the old top of its space. -/
def Heap.IsLeftOver {μ : Type} (h : Heap μ) (r : ℕ) : Prop :=
  ∃ s ∈ h.spaces, s.newTop ≤ h.table.regionStart r ∧ h.table.regionStart r < s.top

/-- Destinations are claimed and filled once, and one of them is waiting until all are filled. -/
structure Stage.Drains {μ : Type} [ObjectModel μ] (may : Fault → Prop) (s : Stage μ) : Prop where
  once : (s.filled ++ s.queued).Nodup
  destination : ∀ r ∈ s.filled ++ s.queued, s.heap.IsDestination r
  fills : ∀ r ∈ s.queued, Heap.Leads may (Heap.fillRegion r) s.heap fun _ _ => True
  waiting : ∀ r, s.heap.IsDestination r → (s.heap.table.regions.get r).isCompleted = false →
    s.queued ≠ []
  filled : s.queued = [] → ∀ r, s.heap.IsDestination r →
    r ∈ s.filled ∧ (s.heap.table.regions.get r).isCompleted = true
  drained : s.queued = [] → ∀ r, s.heap.IsLeftOver r →
    (s.heap.table.regions.get r).count = 0 ∧ (s.heap.table.regions.get r).isClaimed = false

namespace Plan.Serves

variable {μ : Type} {h : Heap μ} (hs : p.Serves h)
include hs

/-- The destinations are the regions that receive data. -/
lemma isDestination_iff : h.IsDestination r ↔ p.Receives r := by
  have hone : ∀ (s : Space) (z : Zone), s.Matches p.covered p.regionWords p.objs z →
      (s.densePrefix ≤ h.table.regionStart r
      ∧ h.table.regionStart r < s.newTop ↔ z.Receives p.regionWords p.objs r) := fun s z hm => by
    rw [hs.regionStart_eq, hm.densePrefix, hm.newTop, Extent.addr_le_addr, Extent.addr_lt_addr]
    exact and_congr_left fun _ => ⟨fun hle => Nat.le_of_mul_le_mul_right hle p.regionWords_pos,
      Nat.mul_le_mul_right _⟩
  constructor
  · rintro ⟨s, hmem, hbounds⟩
    obtain ⟨i, hi⟩ := List.mem_iff_getElem?.1 hmem
    obtain ⟨z, hz, hmatches⟩ := hs.exists_zone hi
    exact ⟨z, List.mem_of_getElem? hz, (hone s z hmatches).1 hbounds⟩
  · rintro ⟨z, hz, hreceives⟩
    obtain ⟨i, hi⟩ := List.mem_iff_getElem?.1 hz
    obtain ⟨s, hspace, hmatches⟩ := hs.exists_space hi
    exact ⟨s, List.mem_of_getElem? hspace, (hone s z hmatches).2 hreceives⟩

/-- A region between the new top and the old one receives no data. -/
lemma exists_leftOver (hp : p.Valid) (hr : h.IsLeftOver r) :
    ∃ z ∈ p.zones, z.keep ≤ r ∧ r < z.last ∧ ¬z.Receives p.regionWords p.objs r := by
  obtain ⟨s, hmem, h1, h2⟩ := hr
  obtain ⟨i, hi⟩ := List.mem_iff_getElem?.1 hmem
  obtain ⟨z, hz, hmatches⟩ := hs.exists_zone hi
  have hord := hp.ordered z (List.mem_of_getElem? hz)
  have hlow := z.le_packed p.regionWords p.objs z.top
  have htop := hord.top_le_last
  rw [hs.regionStart_eq] at h1 h2
  rw [hmatches.newTop, Extent.addr_le_addr] at h1
  rw [hmatches.top, Extent.addr_lt_addr] at h2
  exact ⟨z, List.mem_of_getElem? hz,
    Nat.le_of_mul_le_mul_right (le_trans hlow h1) p.regionWords_pos,
    Nat.lt_of_mul_lt_mul_right (a := p.regionWords) (by omega), fun hreceives =>
      absurd hreceives.2 (not_lt.2 h1)⟩

end Plan.Serves

/-- Every stage drains its queue. -/
theorem Upkeep.Tracks.drains {μ : Type} [ObjectModel μ] {K : Upkeep μ p} {s : Stage μ}
    (htracks : K.Tracks tasks s) (hp : p.Valid) (hdivides : p.Divides tasks) : s.Drains K.may := by
  have hs := htracks.rests.serves
  -- A destination is completed exactly if it has been filled.
  have hcompleted : ∀ r, p.Receives r → ((s.heap.table.regions.get r).isCompleted = true
      ↔ s.Done r) := fun r hr => by
    obtain ⟨z, hz, hreceives⟩ := hr
    exact htracks.rests.isCompleted_iff hz hreceives.1 (hreceives.lt_last (hp.ordered z hz))
  constructor
  case once => exact htracks.nodup
  case destination =>
    exact fun r hr => hs.isDestination_iff.2 ((htracks.mem_claimed r).1 hr).receives
  case fills => exact fun r hr => (htracks.fill hp hdivides hr).mono fun _ _ _ => trivial
  case waiting =>
    intro r hr hnot hidle
    have hreceives := hs.isDestination_iff.1 hr
    rw [(hcompleted r hreceives).2 (htracks.done_of_idle hp hidle hreceives)] at hnot
    exact Bool.noConfusion hnot
  case filled =>
    intro hidle r hr
    have hreceives := hs.isDestination_iff.1 hr
    exact ⟨((htracks.mem_filled_of_idle hp hdivides hidle).2 r).2 hreceives,
      (hcompleted r hreceives).2 (htracks.done_of_idle hp hidle hreceives)⟩
  case drained =>
    intro hidle r hr
    obtain ⟨z, hz, h1, h2, hnot⟩ := hs.exists_leftOver hp hr
    have hfreed : ¬z.Freed p.regionWords p.objs s.Done r := fun h => hnot h.1
    -- Every region that takes data from this one has been filled.
    have howed : z.owed p.regionWords p.objs s.Done r = 0 :=
      Zone.owed_eq_zero_iff.2 fun q _ hfeeds =>
      htracks.done_of_idle hp hidle (Plan.receives_of_feeds hz hp h2 hfeeds)
    refine ⟨(htracks.rests.count_eq hz h1 h2 hfreed).trans howed, ?_⟩
    rw [Bool.eq_false_iff, ne_eq, htracks.rests.isClaimed_iff hz h1 h2]
    exact hfreed

namespace Heap

variable {μ : Type} [ObjectModel μ] {h : Heap μ} {objs : List Span} {zones : List Zone}
  {minimum workers tasksPerWorker : ℕ}

/-- In every schedule each destination is claimed and filled once, unless the host faults, and
compaction does not get stuck before all of them are. -/
theorem compaction_drains (hm : h.Marked objs zones) (hcloses : ClosesGaps μ minimum)
    (hfits : h.FillersFit objs zones minimum) (hworkers : 0 < workers)
    (hmany : workers * max tasksPerWorker 1 < wordValues) (limiter : Limiter) (maximum : Bool) :
    Runs (do
      planSpaces limiter maximum
      beginCompaction workers tasksPerWorker) h fun s₀ _ =>
    ∃ p : Plan, p.Serves s₀.heap ∧ ∀ s, Relation.ReflTransGen Stage.Step s₀ s →
    s.Drains (p.HostFault μ) := by
  refine (planned_tracks hm hcloses hfits hworkers hmany limiter maximum).mono fun s₀ _ => ?_
  rintro ⟨p, tasks, hp, hdivides, htracks⟩
  exact ⟨p, htracks.rests.serves,
    fun s hsteps => (htracks.reach hp hdivides hsteps).drains hp hdivides⟩

/-- One worker compacts a heap in which two objects are marked, without a dense prefix. -/
theorem compaction_drains_fourRegions : ∃ m, (do
      let (_, m) ← fourRegions.bitmap.mark (fourRegions.covered.addr 1) 3
      let (_, m) ← m.mark (fourRegions.covered.addr 10) 2
      pure m) = .ok m
    ∧ ({ fourRegions with bitmap := m } : Heap MemoryImage).Marked [⟨10, 2⟩, ⟨1, 3⟩] [⟨0, 0, 4, 14⟩]
    ∧ 1 * max 0 1 < wordValues ∧ Runs (do
      planSpaces (.ofPercent 50 80) true
      beginCompaction 1 0) { fourRegions with bitmap := m } fun s₀ _ =>
    ∃ p : Plan, p.Serves s₀.heap
      ∧ ∀ s, Relation.ReflTransGen Stage.Step s₀ s → s.Drains (p.HostFault MemoryImage) := by
  obtain ⟨m, heq, hmarked⟩ := fourRegions_marked
  exact ⟨m, heq, hmarked, by decide,
    compaction_drains hmarked MemoryImage.closesGaps (fillersFit_one _ _ _) (by decide)
    (by decide) _ _⟩

end Heap

end MarkCompact
