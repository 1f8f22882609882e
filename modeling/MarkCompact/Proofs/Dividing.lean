import MarkCompact.Proofs.Schedules

/-!
# Dividing the dense prefixes

However many workers there are, and however many tasks each of them is to have, the regions of every
dense prefix are divided into tasks: each region belongs to one of them.

Main statements: `PrefixTask.divide_eq` (one prefix), `Heap.prefixTasks_rows` (all of them, space by
space) and `Heap.prefixTasks_eq` (what a compaction needs of the tasks).
-/

namespace MarkCompact

variable {a b i n : ℕ}

namespace PrefixTask

/-- The tasks cut the regions from `a` up to, not including, `b` of space `i`, from left to
right. -/
structure Cuts (i a b : ℕ) (tasks : List PrefixTask) : Prop where
  part : ∀ task ∈ tasks, task.space = i ∧ a ≤ task.regionBeg ∧ task.regionBeg < task.regionEnd
    ∧ task.regionEnd ≤ b
  ordered : tasks.Pairwise fun s t => s.regionEnd ≤ t.regionBeg
  covers : ∀ r, a ≤ r → r < b → ∃ task ∈ tasks, task.regionBeg ≤ r ∧ r < task.regionEnd

lemma Cuts.nil (hle : b ≤ a) : Cuts i a b [] :=
  ⟨fun _ htask => absurd htask List.not_mem_nil, .nil, fun _ h1 h2 => absurd h1 (by omega)⟩

lemma Cuts.cons {c : ℕ} {tasks : List PrefixTask} (h1 : a < c) (h2 : c ≤ b) (h : Cuts i c b tasks) :
    Cuts i a b (⟨i, a, c⟩ :: tasks) where
  part task htask := by
    rcases List.mem_cons.1 htask with rfl | hin
    · exact ⟨rfl, le_refl a, h1, h2⟩
    · obtain ⟨h3, h4, h5, h6⟩ := h.part task hin
      exact ⟨h3, by omega, h5, h6⟩
  ordered := List.pairwise_cons.2 ⟨fun task htask => (h.part task htask).2.1, h.ordered⟩
  covers r hr1 hr2 := by
    by_cases hlt : r < c
    · exact ⟨_, List.mem_cons_self, hr1, hlt⟩
    · obtain ⟨task, htask, hr⟩ := h.covers r (by omega) hr2
      exact ⟨task, List.mem_cons_of_mem _ htask, hr⟩

/-- The tasks stand in a row: each begins where the one before ends, and together they make up the
regions from `a` up to, not including, `b` of space `i`. -/
inductive InRow (i : ℕ) : (a b : ℕ) → List PrefixTask → Prop
  | nil (a : ℕ) : InRow i a a []
  | cons {a b c : ℕ} {tasks : List PrefixTask} (hlt : a < c) (rest : InRow i c b tasks) :
      InRow i a b (⟨i, a, c⟩ :: tasks)

namespace InRow

variable {tasks : List PrefixTask}

lemma le (h : InRow i a b tasks) : a ≤ b := by
  induction h with
  | nil a => exact le_refl a
  | cons hlt _ ih => omega

lemma eq_nil_iff (h : InRow i a b tasks) : tasks = [] ↔ a = b := by
  cases h with
  | nil a => exact ⟨fun _ => rfl, fun _ => rfl⟩
  | cons hlt rest =>
    exact ⟨fun h => (List.cons_ne_nil _ _ h).elim, fun h => absurd rest.le (by omega)⟩

lemma cuts (h : InRow i a b tasks) : Cuts i a b tasks := by
  induction h with
  | nil a => exact .nil (le_refl a)
  | cons hlt rest ih => exact .cons hlt rest.le ih

/-- A region belongs to one task only. -/
lemma existsUnique (h : InRow i a b tasks) {r : ℕ} (hle : a ≤ r) (hlt : r < b) :
    ∃! task, task ∈ tasks ∧ task.regionBeg ≤ r ∧ r < task.regionEnd := by
  induction h with
  | nil a => omega
  | @cons a b c tasks hac rest ih =>
    by_cases hr : r < c
    · refine ⟨⟨i, a, c⟩, ⟨List.mem_cons_self, hle, hr⟩, fun task htask => ?_⟩
      obtain ⟨hin, hbeg, _⟩ := htask
      rcases List.mem_cons.1 hin with rfl | hin
      · rfl
      · have := (rest.cuts.part task hin).2.1
        omega
    · obtain ⟨task, ⟨hin, hbeg, hend⟩, hunique⟩ := ih (by omega) hlt
      refine ⟨task, ⟨List.mem_cons_of_mem _ hin, hbeg, hend⟩, fun task' htask' => ?_⟩
      obtain ⟨hin', hbeg', hend'⟩ := htask'
      rcases List.mem_cons.1 hin' with rfl | hin'
      · exact absurd hend' hr
      · exact hunique task' ⟨hin', hbeg', hend'⟩

end InRow

/-- Tasks of a size leave no region out; what is left over goes to the last one. -/
theorem inRow_cut {size : ℕ} (hsize : 0 < size) (hle : a ≤ b) : InRow i a b (cut i size b n a) := by
  induction n generalizing a with
  | zero =>
    rw [cut]
    split
    case isTrue hlt => exact .cons hlt (.nil b)
    case isFalse hge =>
      obtain rfl : a = b := by omega
      exact .nil a
  | succ n ih =>
    rw [cut]
    split
    case isTrue hge =>
      obtain rfl : a = b := by omega
      exact .nil a
    case isFalse hlt => exact .cons (by omega) (ih (min_le_right _ _))

/-- Only what is left over makes one more task than asked for. -/
lemma length_cut_le (i size b n a : ℕ) : (cut i size b n a).length ≤ n + 1 := by
  induction n generalizing a with
  | zero =>
    rw [cut]
    split
    · exact le_refl 1
    · exact Nat.zero_le 1
  | succ n ih =>
    rw [cut]
    split
    · exact Nat.zero_le _
    · exact Nat.succ_le_succ (ih _)

/-- A prefix is divided for any number of workers. -/
theorem divide_eq {workers tasksPerWorker : ℕ} (hworkers : 0 < workers)
    (hmany : workers * max tasksPerWorker 1 < wordValues) (hle : a ≤ b) :
    ∃ tasks, divide workers tasksPerWorker i a b = .ok tasks ∧ InRow i a b tasks
      ∧ tasks.length ≤ workers * max tasksPerWorker 1 + 1 := by
  rw [divide, Word.sub_eq hle, ok_bind, Word.mul_eq hmany, ok_bind]
  have hleMany : workers ≤ workers * max tasksPerWorker 1 := Nat.le_mul_of_pos_right _ (by omega)
  have hcount : 0 < (if b - a ≤ workers * max tasksPerWorker 1 then workers
      else workers * max tasksPerWorker 1)
      ∧ (if b - a ≤ workers * max tasksPerWorker 1 then workers else workers * max tasksPerWorker 1)
        ≤ workers * max tasksPerWorker 1 := by
    split <;> omega
  dsimp only
  rw [Word.div, if_neg (Nat.pos_iff_ne_zero.1 hcount.1)]
  exact ⟨_, rfl, inRow_cut (by omega) hle, (length_cut_le ..).trans (Nat.succ_le_succ hcount.2)⟩

end PrefixTask

/-- A traversal whose steps succeed gives their answers. -/
lemma mapM_eq_ok {α β : Type} {f : α → Except Fault β} {R : α → β → Prop} {xs : List α}
    (h : ∀ x ∈ xs, ∃ y, f x = .ok y ∧ R x y) : ∃ ys, xs.mapM f = .ok ys ∧ List.Forall₂ R xs ys := by
  induction xs with
  | nil => exact ⟨[], rfl, .nil⟩
  | cons x xs ih =>
    obtain ⟨y, hy, hR⟩ := h x List.mem_cons_self
    obtain ⟨ys, hys, hall⟩ := ih fun x' hx' => h x' (List.mem_cons_of_mem _ hx')
    exact ⟨y :: ys, by rw [List.mapM_cons, hy, ok_bind, hys, ok_bind]; rfl, .cons hR hall⟩

namespace Heap

variable {μ : Type} {h : Heap μ} {p : Plan} {s : Space} {z : Zone} {workers tasksPerWorker : ℕ}
  (hu : p.Unbegun h) (hp : p.Valid) (hworkers : 0 < workers)
  (hmany : workers * max tasksPerWorker 1 < wordValues)
include hu hp hworkers hmany

/-- The dense prefix of a space is divided. -/
lemma prefixTasksOf_eq (hz : p.zones[i]? = some z)
    (hs : s.Matches p.covered p.regionWords p.objs z) :
    ∃ tasks, h.prefixTasksOf workers tasksPerWorker i s = .ok tasks
      ∧ PrefixTask.InRow i z.first z.keep tasks
      ∧ tasks.length ≤ workers * max tasksPerWorker 1 + 1 := by
  have hW := p.regionWords_pos
  have hmem := List.mem_of_getElem? hz
  have hord := hp.ordered z hmem
  have hkeep := hord.first_le_keep
  have hkeepLast := hord.keep_le_last hW
  have hlaid := hu.serves.loaded.laid
  have hregion : ∀ r, r ≤ z.last → h.table.regionOf (p.covered.addr (r * p.regionWords)) = .ok r :=
    fun r hr => by
    have hle := Nat.mul_le_mul_right p.regionWords hr
    have hlast := hord.last_le
    have heq :=
      hlaid.regionOf_addr (i := r * p.regionWords) (by rw [hu.serves.loaded.covered]; omega)
    rw [hu.serves.loaded.covered, hu.serves.loaded.regionWords_eq, Nat.mul_div_cancel _ hW] at heq
    exact heq
  rw [prefixTasksOf, hs.densePrefix, hs.bottom, hs.limit]
  simp only [Extent.addr_inj, ne_eq, Nat.mul_left_inj (show p.regionWords ≠ 0 by omega)]
  split
  case isTrue heq => exact ⟨[], rfl, heq ▸ .nil z.keep, Nat.zero_le _⟩
  case isFalse hne =>
    obtain ⟨tasks, heq, hrow⟩ := PrefixTask.divide_eq (i := i) hworkers hmany hkeep
    refine ⟨tasks, ?_, hrow⟩
    rw [hregion _ hkeepLast, ok_bind, hregion _ (by omega), ok_bind]
    by_cases hlast : z.keep = z.last
    · rw [if_neg (not_not.2 hlast)]
      exact heq
    · have hlt : z.keep < z.last := by omega
      -- No region feeds one in front of the dense prefix.
      have hcount : (h.table.regions.get z.keep).count = 0 := by
        rw [(hu.untouched z hmem).count z.keep (le_refl _) hlt, hu.serves.loaded.regionWords_eq,
          ← @Zone.owed_eq_touched _ _ _ _ (fun _ => False) hW (le_refl _) fun _ => id]
        exact Zone.owed_eq_zero_iff.2 fun q hq hfeeds => absurd hfeeds.keep_le (by omega)
      rw [if_pos hlast, RegionTable.Laid.region_eq (hu.serves.loaded.region_lt hp hmem hlt),
        ok_bind, if_neg (not_not.2 (Or.inl (Region.isAvailable_iff.2 hcount)))]
      exact heq

/-- The dense prefixes are divided into tasks, space by space. -/
theorem prefixTasks_rows :
    ∃ rows : List (List PrefixTask), h.prefixTasks workers tasksPerWorker = .ok rows.flatten
    ∧ rows.length = p.zones.length
    ∧ ∀ i (hi : i < rows.length), ∃ z, p.zones[i]? = some z
    ∧ PrefixTask.InRow i z.first z.keep rows[i]
      ∧ rows[i].length ≤ workers * max tasksPerWorker 1 + 1 := by
  have hone : ∀ x ∈ h.spaces.zipIdx, ∃ tasks,
      h.prefixTasksOf workers tasksPerWorker x.2 x.1 = .ok tasks
      ∧ ∃ z, p.zones[x.2]? = some z ∧ PrefixTask.InRow x.2 z.first z.keep tasks
        ∧ tasks.length ≤ workers * max tasksPerWorker 1 + 1 := by
    rintro ⟨s, i⟩ hx
    obtain ⟨z, hz, hs⟩ := hu.serves.exists_zone (List.mem_zipIdx_iff_getElem?.1 hx)
    obtain ⟨tasks, heq, hrow⟩ := prefixTasksOf_eq hu hp hworkers hmany hz hs
    exact ⟨tasks, heq, z, hz, hrow⟩
  obtain ⟨rows, heq, hall⟩ := mapM_eq_ok hone
  refine ⟨rows, by rw [prefixTasks, heq]; rfl, ?_, fun i hi => ?_⟩
  · rw [← hall.length_eq, List.length_zipIdx, hu.serves.spaces.length_eq]
  · have hrow := hall.get (hall.length_eq ▸ hi) hi
    rw [List.get_eq_getElem, List.getElem_zipIdx, Nat.zero_add] at hrow
    exact hrow

/-- The tasks divide the dense prefixes of the plan. -/
theorem prefixTasks_eq :
    ∃ tasks, h.prefixTasks workers tasksPerWorker = .ok tasks ∧ p.Divides tasks := by
  obtain ⟨all, heq, hlength, hrows⟩ := prefixTasks_rows hu hp hworkers hmany
  -- The tasks of space number `i` cut its dense prefix.
  have hcuts : ∀ i (hi : i < all.length), ∃ z, p.zones[i]? = some z
      ∧ PrefixTask.Cuts i z.first z.keep all[i] := by
    intro i hi
    obtain ⟨z, hz, hrow, _⟩ := hrows i hi
    exact ⟨z, hz, hrow.cuts⟩
  refine ⟨all.flatten, heq, ?_, List.pairwise_flatten.2 ⟨fun tasks htasks => ?_, ?_⟩, ?_⟩
  · intro task htask
    obtain ⟨tasks, htasks, hin⟩ := List.mem_flatten.1 htask
    obtain ⟨i, hi, rfl⟩ := List.mem_iff_getElem.1 htasks
    obtain ⟨z, hz, hcut⟩ := hcuts i hi
    obtain ⟨rfl, hpart⟩ := hcut.part task hin
    exact ⟨z, hz, hpart⟩
  · obtain ⟨i, hi, rfl⟩ := List.mem_iff_getElem.1 htasks
    obtain ⟨z, _, hcut⟩ := hcuts i hi
    exact hcut.ordered.imp Or.inl
  · refine List.pairwise_iff_getElem.2 fun i j hi hj hlt s hs t ht => ?_
    obtain ⟨z, hz, hcut⟩ := hcuts i hi
    obtain ⟨z', hz', hcut'⟩ := hcuts j hj
    obtain ⟨_, h1, h2, h3⟩ := hcut.part s hs
    obtain ⟨_, h4, h5, h6⟩ := hcut'.part t ht
    have hlast := (hp.ordered z (List.mem_of_getElem? hz)).keep_le_last p.regionWords_pos
    have hlast' := (hp.ordered z' (List.mem_of_getElem? hz')).keep_le_last p.regionWords_pos
    rcases Zone.apart_of_ne hp.apart hz hz' (by omega) with hle | hle <;> omega
  · intro z hz r h1 h2
    obtain ⟨i, hi, rfl⟩ := List.mem_iff_getElem.1 hz
    obtain ⟨z', hz', hcut⟩ := hcuts i (hlength ▸ hi)
    rw [List.getElem?_eq_getElem hi] at hz'
    cases hz'
    obtain ⟨task, htask, hr⟩ := hcut.covers r h1 h2
    exact ⟨task, List.mem_flatten.2 ⟨_, List.getElem_mem _, htask⟩, hr⟩

end Heap

end MarkCompact
