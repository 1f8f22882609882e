import MarkCompact.Proofs.FirstClaims
import MarkCompact.Proofs.LiveWords
import MarkCompact.Proofs.PlannedHeaps

/-!
# How workers are kept apart

The workers of a compaction coordinate through the table only: a region is filled by whoever claims
it, and it is claimed when its count is zero.  This is safe because the count of an unclaimed region
is the number of regions that still have to take some of its data, whatever has been filled so far
and in whatever order.

Main statements: `Upkeep.Rests.coordinated` (what the counts say between two fills) and
`compaction_coordinated` (from planning on, in every schedule).
-/

namespace MarkCompact

variable {p : Plan} {done : ℕ → Prop} {z : Zone} {D r : ℕ}

/-! ## What the counts are to say -/

namespace Heap

variable {μ : Type} {h h' : Heap μ} {s : Space}

/-- Some live word of region `r` is forwarded into region `D`. -/
def Forwards (h : Heap μ) (r D : ℕ) : Prop :=
  ∃ w, w < h.covered.words ∧ h.isLiveWord (h.covered.addr w) = .ok true
    ∧ h.table.regionOf (h.covered.addr w) = .ok r
    ∧ ∃ target t, h.table.forward h.bitmap (h.covered.addr w) = .ok (target, t)
    ∧ h.table.regionOf target = .ok D

open Classical in
/-- The regions other than `r` that live words of region `r` are forwarded into, and that are not
completed. -/
noncomputable def unfinished (h : Heap μ) (r : ℕ) : Finset ℕ :=
  (Finset.range h.table.geometry.regionCount).filter fun D =>
    D ≠ r ∧ (h.table.regions.get D).isCompleted = false ∧ h.Forwards r D

/-- Counts of unclaimed regions above the dense prefixes are exact, and no region that is claimed,
or could be, holds a word that another region still has to take. -/
structure Coordinated (h : Heap μ) : Prop where
  count_eq : ∀ s ∈ h.spaces, ∀ r, s.densePrefix ≤ h.table.regionStart r →
    h.table.regionStart r < s.limit →
    (h.table.regions.get r).isClaimed = false →
    (h.table.regions.get r).count = (h.unfinished r).card
  safe : ∀ s ∈ h.spaces, ∀ r, s.densePrefix ≤ h.table.regionStart r →
    h.table.regionStart r < s.limit →
    (h.table.regions.get r).isClaimed ∨ (h.table.regions.get r).isAvailable → ∀ D, D ≠ r →
    h.Forwards r D →
    (h.table.regions.get D).isCompleted

end Heap

/-! ## Between two fills -/

namespace Plan.Serves

variable {μ : Type} {h : Heap μ} (hs : p.Serves h) (hp : p.Valid)
include hs hp

omit hp in
/-- The regions of a space are those of its zone, and those above its dense prefix are those that
the zone does not keep. -/
lemma exists_region {s : Space} (hspace : s ∈ h.spaces) (hlimit : h.table.regionStart r < s.limit) :
    ∃ z ∈ p.zones, s.Matches p.covered p.regionWords p.objs z ∧ r < z.last
      ∧ (s.bottom ≤ h.table.regionStart r → z.first ≤ r) ∧ (s.densePrefix ≤ h.table.regionStart r →
        z.keep ≤ r) := by
  obtain ⟨i, hi⟩ := List.mem_iff_getElem?.1 hspace
  obtain ⟨z, hz, hm⟩ := hs.exists_zone hi
  rw [hs.regionStart_eq] at hlimit ⊢
  rw [hm.limit, Extent.addr_lt_addr] at hlimit
  rw [hm.bottom, hm.densePrefix, Extent.addr_le_addr, Extent.addr_le_addr]
  exact ⟨z, List.mem_of_getElem? hz, hm, Nat.lt_of_mul_lt_mul_right hlimit,
    fun hle => Nat.le_of_mul_le_mul_right hle p.regionWords_pos, fun hle =>
      Nat.le_of_mul_le_mul_right hle p.regionWords_pos⟩

/-- Words of a region are forwarded into the regions that it feeds. -/
theorem forwards_iff (hz : z ∈ p.zones) (h1 : z.keep ≤ r) (h2 : r < z.last) :
    h.Forwards r D ↔ z.Feeds p.regionWords p.objs r D := by
  have hW := p.regionWords_pos
  have hord := hp.ordered z hz
  have hfirst := Nat.mul_le_mul_right p.regionWords (le_trans hord.first_le_keep h1)
  have hkeep := Nat.mul_le_mul_right p.regionWords h1
  have hlast := Nat.mul_le_mul_right p.regionWords (show r + 1 ≤ z.last from h2)
  have hwords := hord.last_le
  have hregion : ∀ x, x ≤ p.covered.words →
      h.table.regionOf (p.covered.addr x) = .ok (x / p.regionWords) := fun x hx => by
    have := hs.loaded.laid.regionOf_addr (i := x) (by rw [hs.loaded.covered]; exact hx)
    rw [hs.loaded.covered, hs.loaded.regionWords_eq] at this
    exact this
  rw [Nat.succ_mul] at hlast
  rw [Zone.feeds_iff hW h1, Heap.Forwards, hs.covered]
  have hone : ∀ w, r * p.regionWords ≤ w → w < r * p.regionWords + p.regionWords → Live p.objs w →
      ∃ t, h.table.forward h.bitmap (p.covered.addr w)
        = .ok (p.covered.addr (z.packed p.regionWords p.objs w), t)
        ∧ z.packed p.regionWords p.objs w ≤ p.covered.words := fun w hw1 hw2 hw => by
    obtain ⟨t, heq, _⟩ := hs.loaded.forward_eq hp hs.consistent.marks hs.bitmap_covered hw
    have hle := @Zone.packed_le p.objs _ _ z (le_trans hkeep hw1)
    rw [hp.forward_eq hz ⟨by omega, by omega⟩, Zone.forward, if_neg (by omega)] at heq
    exact ⟨t, heq, by omega⟩
  constructor
  · rintro ⟨w, hw, hlive, hr, target, t, hforward, hD⟩
    rw [Heap.isLiveWord_eq hs hp hw, Except.ok.injEq, decide_eq_true_iff] at hlive
    rw [hregion w hw.le, Except.ok.injEq] at hr
    obtain ⟨hw1, hw2⟩ := div_mul_bounds hW w
    rw [hr] at hw1 hw2
    obtain ⟨t', heq, hle⟩ := hone w hw1 hw2 hlive
    rw [heq, Except.ok.injEq, Prod.mk.injEq] at hforward
    obtain ⟨rfl, rfl⟩ := hforward
    rw [hregion _ hle, Except.ok.injEq] at hD
    exact ⟨w, hw1, hw2, hlive, hD⟩
  · rintro ⟨w, hw1, hw2, hlive, hD⟩
    obtain ⟨t, heq, hle⟩ := hone w hw1 hw2 hlive
    have hw : w < p.covered.words := by omega
    refine ⟨w, hw, ?_, ?_, _, t, heq, by rw [hregion _ hle, hD]⟩
    · rw [Heap.isLiveWord_eq hs hp hw, decide_eq_true hlive]
    · rw [hregion w hw.le, Nat.div_eq_of_lt_le hw1 (by rw [Nat.succ_mul]; exact hw2)]

end Plan.Serves

namespace Upkeep.Rests

variable {μ : Type} [ObjectModel μ] {K : Upkeep μ p} {h : Heap μ} (hrests : K.Rests done h)
include hrests

/-- A region is claimed exactly if it receives data and owes none. -/
lemma isClaimed_iff (hz : z ∈ p.zones) (h1 : z.keep ≤ r) (h2 : r < z.last) :
    (h.table.regions.get r).isClaimed = true ↔ z.Freed p.regionWords p.objs done r := by
  have howed := @Zone.owed_lt p.objs _ _ _ p.regionWords_pos h1 done
  rw [Region.isClaimed_iff, hrests.counted.count z hz r h1 h2, Zone.countOf]
  split
  case isTrue hfreed =>
    refine iff_of_true ?_ hfreed
    split
    · decide
    · exact le_refl _
  case isFalse hfreed => exact iff_of_false (not_le.2 howed) hfreed

/-- A region is completed exactly if it has been filled. -/
lemma isCompleted_iff (hz : z ∈ p.zones) (h1 : z.keep ≤ r) (h2 : r < z.last) :
    (h.table.regions.get r).isCompleted = true ↔ done r := by
  have howed := @Zone.owed_lt p.objs _ _ _ p.regionWords_pos h1 done
  rw [Region.isCompleted_iff, hrests.counted.count z hz r h1 h2]
  by_cases hfreed : z.Freed p.regionWords p.objs done r
  · rw [Zone.countOf, if_pos hfreed]
    split
    case isTrue hdone => exact iff_of_true (le_refl _) hdone
    case isFalse hdone => exact iff_of_false (by decide) hdone
  · rw [Zone.countOf_of_not_freed hfreed]
    refine iff_of_false (fun hle => ?_) fun hdone => hfreed (hrests.keeps.freed z hz r h1 h2 hdone)
    have : claimedCount ≤ completedCount := by decide
    omega

/-- The count of an unclaimed region is what it owes. -/
lemma count_eq (hz : z ∈ p.zones) (h1 : z.keep ≤ r) (h2 : r < z.last)
    (hnot : ¬z.Freed p.regionWords p.objs done r) :
    (h.table.regions.get r).count = z.owed p.regionWords p.objs done r := by
  rw [hrests.counted.count z hz r h1 h2, Zone.countOf_of_not_freed hnot]

variable (hp : p.Valid)
include hp

/-- The regions that are owed data of region `r` are those that are not completed. -/
lemma unfinished_eq (hz : z ∈ p.zones) (h1 : z.keep ≤ r) (h2 : r < z.last) :
    (h.unfinished r).card = z.owed p.regionWords p.objs done r := by
  have hs := hrests.serves
  rw [Zone.owed, Heap.unfinished]
  congr 1
  ext D
  have hforwards := hs.forwards_iff hp hz h1 h2 (D := D)
  simp only [Finset.mem_filter, Finset.mem_range, hforwards]
  constructor
  · rintro ⟨_, hne, hcompleted, hfeeds⟩
    have hle := hfeeds.le p.regionWords_pos h1
    refine ⟨by omega, hfeeds, fun hdone => ?_⟩
    rw [(hrests.isCompleted_iff hz hfeeds.keep_le (by omega)).2 hdone] at hcompleted
    exact Bool.noConfusion hcompleted
  · rintro ⟨hlt, hfeeds, hnot⟩
    refine ⟨lt_trans hlt (hs.loaded.region_lt hp hz h2), by omega, ?_, hfeeds⟩
    rw [Bool.eq_false_iff, ne_eq, hrests.isCompleted_iff hz hfeeds.keep_le (by omega)]
    exact hnot

/-- Between two fills the counts are exact. -/
theorem coordinated : h.Coordinated := by
  have hs := hrests.serves
  constructor
  case count_eq =>
    intro s hspace r hr1 hr2 hnot
    obtain ⟨z, hz, -, h2, -, hkeep⟩ := hs.exists_region hspace hr2
    have h1 := hkeep hr1
    rw [hrests.unfinished_eq hp hz h1 h2, hrests.count_eq hz h1 h2]
    rw [← hrests.isClaimed_iff hz h1 h2, hnot]
    exact Bool.false_ne_true
  case safe =>
    intro s hspace r hr1 hr2 hready D hne hforwards
    obtain ⟨z, hz, -, h2, -, hkeep⟩ := hs.exists_region hspace hr2
    have h1 := hkeep hr1
    rw [hs.forwards_iff hp hz h1 h2] at hforwards
    have hle := hforwards.le p.regionWords_pos h1
    have howed : z.owed p.regionWords p.objs done r = 0 := by
      rw [hrests.isClaimed_iff hz h1 h2, Region.isAvailable_iff] at hready
      by_cases hfreed : z.Freed p.regionWords p.objs done r
      · exact hfreed.2
      · rw [← hrests.count_eq hz h1 h2 hfreed]
        exact hready.resolve_left hfreed
    rw [hrests.isCompleted_iff hz hforwards.keep_le (by omega)]
    exact Zone.owed_eq_zero_iff.1 howed D (by omega) hforwards

end Upkeep.Rests

/-! ## Every schedule -/

/-- Whatever the host is, nothing has been done before compaction begins. -/
lemma Plan.Unbegun.hostReaches {μ : Type} [ObjectModel μ] {h : Heap μ} (hu : p.Unbegun h)
    (hp : p.Valid) :
    ∃ g, (p.hostUpkeep μ hp).Reaches (p.Settled fun _ => False) (fun _ => False)
      (fun _ => False) g h :=
  ⟨⟨p.Settled fun _ => False, fun _ => False, [], fun _ => False⟩, hu.serves, fun _ => Iff.rfl,
    fun _ => iff_of_false List.not_mem_nil id, fun _ ho => absurd ho List.not_mem_nil, fun _ =>
      id, fun _ _ => id,
    fun _ => False.elim⟩

namespace Heap

section

variable {μ : Type} [ObjectModel μ] {h : Heap μ} {objs : List Span} {zones : List Zone}
  {minimum workers tasksPerWorker : ℕ} (hm : h.Marked objs zones) (hcloses : ClosesGaps μ minimum)
  (hfits : h.FillersFit objs zones minimum) (hworkers : 0 < workers)
  (hmany : workers * max tasksPerWorker 1 < wordValues) (limiter : Limiter) (maximum : Bool)
include hm hcloses hfits hworkers hmany

/-- From planning on a compaction keeps track, whatever the host does. -/
lemma planned_tracks : Runs (do
      planSpaces limiter maximum
      beginCompaction workers tasksPerWorker) h fun s _ =>
    ∃ p tasks, ∃ hp : Plan.Valid p, p.Divides tasks ∧ (p.hostUpkeep μ hp).Tracks tasks s := by
  refine (hm.unplanned.planSpaces_runs hcloses hfits limiter maximum).bind fun _ h₁ => ?_
  rintro ⟨fillers, zones', hplanned⟩
  have hu := hplanned.unbegun hm.unplanned fun _ => 0
  have hp := hplanned.valid hm.unplanned fun _ => 0
  refine (beginCompaction_runs (Plan.hostUpkeep_closesHoles μ hp) hu hp (hu.hostReaches hp) hworkers
    hmany).mono fun s h₂ => ?_
  rintro ⟨_, _, tasks, hdivides, htracks⟩
  exact ⟨_, tasks, hp, hdivides, htracks⟩

/-- In every state of every schedule the counts are exact, and no live word is in the way of what
may be filled. -/
theorem compaction_coordinated : Runs (do
      planSpaces limiter maximum
      beginCompaction workers tasksPerWorker) h fun s₀ _ =>
    ∀ s, Relation.ReflTransGen Stage.Step s₀ s → s.heap.Coordinated := by
  refine (planned_tracks hm hcloses hfits hworkers hmany limiter maximum).mono fun s₀ _ => ?_
  rintro ⟨p, tasks, hp, hdivides, htracks⟩ s hsteps
  exact (htracks.reach hp hdivides hsteps).rests.coordinated hp

end

/-- Two workers, three tasks each, compact a heap in which two objects are marked. -/
theorem compaction_coordinated_fourRegions : ∃ m, (do
      let (_, m) ← fourRegions.bitmap.mark (fourRegions.covered.addr 1) 3
      let (_, m) ← m.mark (fourRegions.covered.addr 10) 2
      pure m) = .ok m
    ∧ ({ fourRegions with bitmap := m } : Heap MemoryImage).Marked [⟨10, 2⟩, ⟨1, 3⟩] [⟨0, 0, 4, 14⟩]
    ∧ 2 * max 3 1 < wordValues ∧ Runs (do
      planSpaces (.ofPercent 50 80) false
      beginCompaction 2 3) { fourRegions with bitmap := m } fun s₀ _ =>
    ∀ s, Relation.ReflTransGen Stage.Step s₀ s → s.heap.Coordinated := by
  obtain ⟨m, heq, hmarked⟩ := fourRegions_marked
  exact ⟨m, heq, hmarked, by decide,
    compaction_coordinated hmarked MemoryImage.closesGaps (fillersFit_one _ _ _) (by decide)
    (by decide) _ _⟩

end Heap

end MarkCompact
