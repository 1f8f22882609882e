import MarkCompact.Proofs.LiveWords
import MarkCompact.Proofs.Outcomes

/-!
# Every object is updated once

The references of an object must be redirected when the object is complete at its new place, and not
a second time, since a redirected reference already is a new address.  Four parts of compaction
share this work: tasks of dense prefixes, whole objects that are placed by a fill, objects across
the end of a source region, and objects that were split over destination regions.  In whatever order
they run, and however the dense prefixes are divided, each marked object is updated once.

Main statement: `updated_once`.
-/

namespace MarkCompact

variable {p : Plan} {zones : List Zone} {objects : List (List Span)} {strong : List ℕ}
  {tasks : List PrefixTask} {o : Span}

namespace Heap

/-- The tasks are a partition of the dense prefixes, each into runs of regions. -/
structure Partitioned {μ : Type} (h : Heap μ) (tasks : List PrefixTask) : Prop where
  part : ∀ task ∈ tasks, ∃ s, h.spaces[task.space]? = some s
    ∧ s.bottom ≤ h.table.regionStart task.regionBeg
    ∧ task.regionBeg < task.regionEnd ∧ h.table.regionStart task.regionEnd ≤ s.densePrefix
  apart : tasks.Pairwise fun a b => a.regionEnd ≤ b.regionBeg ∨ b.regionEnd ≤ a.regionBeg
  covers : ∀ s ∈ h.spaces, ∀ r, s.bottom ≤ h.table.regionStart r →
    h.table.regionStart r < s.densePrefix →
    ∃ task ∈ tasks, task.regionBeg ≤ r ∧ r < task.regionEnd

/-- The address and the memory are those of an update of the object at its new place, where all its
words had arrived. -/
structure Updates (h : Heap MemoryImage) (update : ℕ × MemoryImage) (o : Span) : Prop where
  forward : ∃ t, h.table.forward h.bitmap (h.covered.addr o.start) = .ok (update.1, t)
  arrived : ∀ k, k < o.words →
    update.2.wordAt (update.1 + bytesPerWord * k) = h.image.wordAt (h.covered.addr (o.start + k))

end Heap

namespace Plan

variable {h : Heap MemoryImage}

/-- A partition of the dense prefixes is one of those in the plan. -/
lemma Serves.divides {μ : Type} {h : Heap μ} (hs : p.Serves h) (htasks : h.Partitioned tasks) :
    p.Divides tasks where
  part task htask := by
    obtain ⟨s, hspace, h1, h2, h3⟩ := htasks.part task htask
    obtain ⟨z, hz, hmatches⟩ := hs.exists_zone hspace
    rw [hs.regionStart_eq] at h1 h3
    rw [hmatches.bottom, Extent.addr_le_addr] at h1
    rw [hmatches.densePrefix, Extent.addr_le_addr] at h3
    exact ⟨z, hz, Nat.le_of_mul_le_mul_right h1 p.regionWords_pos, h2,
      Nat.le_of_mul_le_mul_right h3 p.regionWords_pos⟩
  apart := htasks.apart
  covers z hz r h1 h2 := by
    obtain ⟨i, hi⟩ := List.mem_iff_getElem?.1 hz
    obtain ⟨s, hspace, hmatches⟩ := hs.exists_space hi
    refine htasks.covers s (List.mem_of_getElem? hspace) r ?_ ?_ <;>
      rw [hs.regionStart_eq]
    · rw [hmatches.bottom, Extent.addr_le_addr]
      exact Nat.mul_le_mul_right _ h1
    · rw [hmatches.densePrefix, Extent.addr_lt_addr]
      exact Nat.mul_lt_mul_of_pos_right h2 p.regionWords_pos

/-- What compaction has recorded of an update is an update of the object. -/
lemma Begins.updates_of_traces (hb : p.Begins h) (ho : o ∈ p.objs) {update : ℕ × MemoryImage}
    (htraces : p.Traces update o) :
    h.Updates update o := by
  have hp := hb.fits.toValid
  have hlive := live_of_mem ho (Span.covers_start (hp.separate.words_pos o ho))
  obtain ⟨t, heq, _⟩ :=
    hb.serves.loaded.forward_eq hp hb.serves.consistent.marks hb.serves.bitmap_covered hlive
  refine ⟨⟨t, ?_⟩, fun k hk => ?_⟩
  · rw [hb.serves.covered, heq, htraces.place]
  · have hword := htraces.complete k hk
    rw [← hb.memory] at hword
    rw [htraces.place, Extent.addr_add, hb.serves.covered]
    exact hword

end Plan

namespace Heap

variable {h : Heap MemoryImage}

/-- In whatever order the dense prefixes, divided in whatever way, and the regions are worked off:
each marked object is updated exactly once, at its new address, and when all of its words have
arrived there.  And the work always ends. -/
theorem updated_once (hw : h.WellFormed zones objects)
    (hpoints : ∀ a ∈ strong, h.Points objects.flatten a) (limiter : Limiter) (maximum : Bool)
    (number : ℕ) :
    Runs (prepare limiter maximum number strong) h fun _ h₁ => ∀ tasks, h₁.Partitioned tasks →
      (∃ totals h₂, h₁.CompactsBy tasks totals h₂)
      ∧ ∀ totals h₂, h₁.CompactsBy tasks totals h₂ → ∃ marked : List Span,
        marked.Nodup ∧ (∀ o, o ∈ marked ↔ h₁.HasMarked o)
          ∧ List.Forall₂ h₁.Updates h₂.updates marked := by
  refine (hw.prepare_runs hpoints limiter maximum number).mono fun _ h₁ => ?_
  rintro ⟨_, hb, _⟩ tasks htasks
  have hdivides := hb.serves.divides htasks
  constructor
  · obtain ⟨queued, h₀, hclaims, _⟩ := hb.claimFirst_runs tasks
    obtain ⟨s, deferred, h₂, hsteps, hidle, hlast⟩ :=
      hb.exists_compacts h₀.log hdivides hclaims .refl
    exact ⟨_, h₂, .intro hclaims hsteps hidle hlast⟩
  · intro totals h₂ hcompacts
    obtain ⟨hcompacted, _, _⟩ := hb.compacted hdivides hcompacts
    obtain ⟨updated, hperm, htraced⟩ := hcompacted.updates
    refine ⟨updated, hperm.nodup_iff.2 hb.fits.toValid.separate.nodup, fun o => ?_, ?_⟩
    · rw [hb.serves.hasMarked_iff, hperm.mem_iff]
    · exact List.forall₂_iff_get.2 ⟨htraced.length_eq, fun i h1 h2 =>
        hb.updates_of_traces (hperm.mem_iff.1 (List.get_mem _ _)) (htraced.get h1 h2)⟩

/-- The example heap, with its first object as the only root. -/
theorem updated_once_linked : linked.WellFormed [⟨0, 0, 4, 14⟩] linkedObjects
    ∧ (∀ a ∈ [64], linked.Points linkedObjects.flatten a)
    ∧ Runs (prepare (.ofPercent 50 80) false 1 [64]) linked fun _ h₁ =>
      ∀ tasks, h₁.Partitioned tasks →
      (∃ totals h₂, h₁.CompactsBy tasks totals h₂)
      ∧ ∀ totals h₂, h₁.CompactsBy tasks totals h₂ → ∃ marked : List Span,
        marked.Nodup ∧ (∀ o, o ∈ marked ↔ h₁.HasMarked o)
          ∧ List.Forall₂ h₁.Updates h₂.updates marked :=
  ⟨linked_wellFormed, linked_root, updated_once linked_wellFormed linked_root _ _ _⟩

end Heap

end MarkCompact
