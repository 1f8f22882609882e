import MarkCompact.Proofs.AnyPrefixes
import MarkCompact.Proofs.Dividing

/-!
# Rows of tasks

A dense prefix that is dropped from the tasks is never updated, and a region that two tasks claim
stops the collection.  In a heap that has been planned neither happens: the tasks of a space are one
row from its bottom to the end of its dense prefix.

Main statement: `Heap.prefixTasks_splitsPrefixes`.
-/

namespace MarkCompact

namespace Heap

variable {μ : Type} {h : Heap μ} {p : Plan} {workers tasksPerWorker : ℕ}

/-- At most `most` tasks, one behind the other, make up the dense prefix of space `i`. -/
structure Splits (h : Heap μ) (most i : ℕ) (s : Space) (tasks : List PrefixTask) : Prop where
  inRow : ∃ a b, s.bottom = h.table.regionStart a ∧ s.densePrefix = h.table.regionStart b
    ∧ PrefixTask.InRow i a b tasks
  within : ∀ task ∈ tasks, ∀ r, task.regionBeg ≤ r → r < task.regionEnd →
    s.bottom ≤ h.table.regionStart r ∧ h.table.regionStart (r + 1) ≤ s.densePrefix
  once : ∀ r, s.bottom ≤ h.table.regionStart r → h.table.regionStart r < s.densePrefix →
    ∃! task, task ∈ tasks ∧ task.regionBeg ≤ r ∧ r < task.regionEnd
  eq_nil_iff : tasks = [] ↔ s.densePrefix = s.bottom
  length_le : tasks.length ≤ most

/-- The tasks are those of the first space, then those of the second, and so on, and they make up
the dense prefixes. -/
def SplitsPrefixes (h : Heap μ) (workers tasksPerWorker : ℕ) : Prop :=
  ∃ rows : List (List PrefixTask), h.prefixTasks workers tasksPerWorker = .ok rows.flatten
    ∧ rows.length = h.spaces.length
    ∧ ∀ i s tasks, h.spaces[i]? = some s → rows[i]? = some tasks →
      h.Splits (workers * max tasksPerWorker 1 + 1) i s tasks

/-- Regions in a row are those that lie in the prefix. -/
lemma splits_of_inRow {z : Zone} {s : Space} {most i : ℕ} {tasks : List PrefixTask}
    (hs : p.Serves h) (hmatches : s.Matches p.covered p.regionWords p.objs z)
    (hrow : PrefixTask.InRow i z.first z.keep tasks) (hlength : tasks.length ≤ most) :
    h.Splits most i s tasks := by
  have hW := p.regionWords_pos
  have hstart : ∀ r, h.table.regionStart r = p.covered.addr (r * p.regionWords) := hs.regionStart_eq
  have hbottom := hmatches.bottom
  have hprefix := hmatches.densePrefix
  constructor
  case inRow =>
    exact ⟨z.first, z.keep, hbottom.trans (hstart _).symm, hprefix.trans (hstart _).symm, hrow⟩
  case within =>
    intro task htask r hbeg hend
    obtain ⟨_, hfirst, _, hkeep⟩ := hrow.cuts.part task htask
    rw [hstart, hstart, hbottom, hprefix, Extent.addr_le_addr, Extent.addr_le_addr]
    exact ⟨Nat.mul_le_mul_right _ (hfirst.trans hbeg),
      Nat.mul_le_mul_right _ (Nat.le_trans hend hkeep)⟩
  case once =>
    intro r hle hlt
    rw [hstart, hbottom, Extent.addr_le_addr, Nat.mul_le_mul_right_iff hW] at hle
    rw [hstart, hprefix, Extent.addr_lt_addr, Nat.mul_lt_mul_right hW] at hlt
    exact hrow.existsUnique hle hlt
  case eq_nil_iff =>
    rw [hrow.eq_nil_iff, hbottom, hprefix, Extent.addr_inj,
      Nat.mul_left_inj (Nat.pos_iff_ne_zero.1 hW), eq_comm]
  case length_le => exact hlength

/-- A plan that has not been carried out has its prefixes divided. -/
lemma splitsPrefixes_of_unbegun (hu : p.Unbegun h) (hp : p.Valid) (hworkers : 0 < workers)
    (hmany : workers * max tasksPerWorker 1 < wordValues) :
    h.SplitsPrefixes workers tasksPerWorker := by
  obtain ⟨rows, heq, hlength, hrows⟩ := prefixTasks_rows hu hp hworkers hmany
  refine ⟨rows, heq, hlength.trans hu.serves.spaces.length_eq.symm, fun i s tasks hs htasks => ?_⟩
  obtain ⟨z, hz, hmatches⟩ := hu.serves.exists_zone hs
  obtain ⟨hi, rfl⟩ := List.getElem?_eq_some_iff.1 htasks
  obtain ⟨z', hz', hrow, hle⟩ := hrows i hi
  cases hz.symm.trans hz'
  exact splits_of_inRow hu.serves hmatches hrow hle

variable [ObjectModel μ] {objs : List Span} {zones : List Zone} {minimum : ℕ}
  {rule : ℕ → PrefixRule}

/-- Around whatever dense prefixes the spaces have been planned, the tasks split them. -/
theorem prefixTasks_splitsPrefixes (hm : h.Unplanned objs zones) (hcloses : ClosesGaps μ minimum)
    (hrule : ∀ i s, h.spaces[i]? = some s → (rule i).FitsIn h.table s) (hworkers : 0 < workers)
    (hmany : workers * max tasksPerWorker 1 < wordValues) :
    Leads (fun _ => ∃ z ∈ zones, z.Misfit h.table.geometry.regionWords minimum objs)
      (planSpacesBy rule) h fun _ h' =>
      h'.SplitsPrefixes workers tasksPerWorker := by
  refine (hm.planSpacesBy_unbegun hcloses hrule).mono fun _ h' => ?_
  rintro ⟨p, _, _, hp, hu⟩
  exact splitsPrefixes_of_unbegun hu hp hworkers hmany

/-- A prefix of two regions is split for three workers. -/
theorem prefixTasks_splitsPrefixes_fourRegions : ∃ m, (do
      let (_, m) ← fourRegions.bitmap.mark (fourRegions.covered.addr 1) 3
      let (_, m) ← m.mark (fourRegions.covered.addr 10) 2
      pure m) = .ok m
    ∧ ({ fourRegions with bitmap := m } : Heap MemoryImage).Unplanned [⟨10, 2⟩, ⟨1, 3⟩]
      [⟨0, 0, 4, 14⟩]
    ∧ (∀ (i : ℕ) (s : Space), fourRegions.spaces[i]? = some s →
      (PrefixRule.endingAt 128).FitsIn fourRegions.table s)
    ∧ Runs (planSpacesBy fun _ => .endingAt 128) { fourRegions with bitmap := m } fun _ h' =>
      h'.SplitsPrefixes 3 4 := by
  obtain ⟨m, heq, hmarked⟩ := fourRegions_marked
  have hleads : Leads _ (planSpacesBy fun _ => .endingAt 128) _ _ :=
    prefixTasks_splitsPrefixes hmarked.unplanned MemoryImage.closesGaps fourRegions_fitsIn
      (show 0 < 3 by decide)
      (show 3 * max 4 1 < wordValues by decide)
  exact ⟨m, heq, hmarked.unplanned, fourRegions_fitsIn,
    hleads.runs fun _ => (fillersFit_one _ _ _).not_misfit⟩

end Heap

end MarkCompact
