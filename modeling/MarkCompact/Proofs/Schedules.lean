import Mathlib.Algebra.BigOperators.Group.List.Basic
import Mathlib.Logic.Relation
import MarkCompact.Proofs.Fills
import MarkCompact.Proofs.PrefixTasks

/-!
# Schedules

A compaction fills claimed regions and runs the tasks of dense prefixes, one after the other in any
order.  A `Stage` is where it stands between two of them, and `Stage.Step` is to do one more of what
is waiting.  `K.Tracks tasks s` is what holds of every stage: the heap rests, the waiting regions
are those that are free and not filled yet, and no region is claimed twice.

Main statements: `Tracks.fill` and `Tracks.update` (one step), `Tracks.reach` (every schedule),
`Tracks.exists_queued` (a region is waiting as long as one is to be filled) and
`Tracks.done_of_idle`.
-/

namespace MarkCompact

/-- A compaction between two tasks. -/
structure Stage (μ : Type) where
  heap : Heap μ
  /-- Claimed regions that wait to be filled. -/
  queued : List ℕ
  /-- Tasks of dense prefixes that wait to be run. -/
  tasks : List PrefixTask
  /-- The regions that have been filled, the last one first. -/
  filled : List ℕ := []
  /-- The tasks that have been run, the last one first. -/
  ran : List PrefixTask := []
  totals : CompactTotals := {}

namespace Stage

variable {μ : Type}

/-- Region `r` has been filled, which claimed some regions, copied some words and left the heap
`h`. -/
def fill (s : Stage μ) (r : ℕ) (claimed : List ℕ) (copied : ℕ) (h : Heap μ) : Stage μ :=
  { s with
    heap := h
    queued := claimed ++ s.queued.erase r
    filled := r :: s.filled
    totals := { s.totals with
      regionsFilled := s.totals.regionsFilled + 1
      wordsCopied := s.totals.wordsCopied + copied } }

/-- A task of a dense prefix has been run, which left the heap `h`. -/
def update (s : Stage μ) (task : PrefixTask) (h : Heap μ) : Stage μ :=
  { s with
    heap := h
    tasks := s.tasks.erase task
    ran := task :: s.ran
    totals :=
      { s.totals with prefixRegions := s.totals.prefixRegions + (task.regionEnd - task.regionBeg) }
        }

/-- One of the waiting regions is filled, or one of the waiting tasks is run. -/
inductive Step [ObjectModel μ] : Stage μ → Stage μ → Prop
  | fill {s : Stage μ} {r copied : ℕ} {claimed : List ℕ} {h : Heap μ} (mem : r ∈ s.queued)
      (eq : Heap.fillRegion r s.heap = .ok ((claimed, copied), h)) :
      Step s (s.fill r claimed copied h)
  | update {s : Stage μ} {task : PrefixTask} {h : Heap μ} (mem : task ∈ s.tasks)
      (eq : Heap.updatePrefix task s.heap = .ok ((), h)) : Step s (s.update task h)

/-- Region `r` is completed. -/
def Done (s : Stage μ) (r : ℕ) : Prop :=
  r ∈ s.filled ∨ ∃ task ∈ s.ran, task.regionBeg ≤ r ∧ r < task.regionEnd

lemma done_fill (s : Stage μ) (r : ℕ) (claimed : List ℕ) (copied : ℕ) (h : Heap μ) :
    (s.fill r claimed copied h).Done = fun x => s.Done x ∨ x = r := by
  funext x
  simp only [Done, fill, List.mem_cons, eq_iff_iff]
  rw [or_assoc, or_comm]

lemma done_update (s : Stage μ) (task : PrefixTask) (h : Heap μ) :
    (s.update task h).Done = fun x => s.Done x ∨ (task.regionBeg ≤ x ∧ x < task.regionEnd) := by
  funext x
  simp only [Done, update, List.mem_cons, exists_eq_or_imp, eq_iff_iff]
  exact (or_congr_right or_comm).trans or_assoc.symm

end Stage

variable {p : Plan} {done : ℕ → Prop} {z : Zone} {tasks : List PrefixTask}
  {task : PrefixTask} {r : ℕ}

namespace Plan

/-- The tasks divide the dense prefixes. -/
structure Divides (p : Plan) (tasks : List PrefixTask) : Prop where
  part : ∀ task ∈ tasks, ∃ z, p.zones[task.space]? = some z ∧ z.first ≤ task.regionBeg
    ∧ task.regionBeg < task.regionEnd ∧ task.regionEnd ≤ z.keep
  apart : tasks.Pairwise fun a b => a.regionEnd ≤ b.regionBeg ∨ b.regionEnd ≤ a.regionBeg
  covers : ∀ z ∈ p.zones, ∀ r, z.first ≤ r → r < z.keep → ∃ task ∈ tasks, task.regionBeg ≤ r
    ∧ r < task.regionEnd

/-- The words that come to region `D` from elsewhere. -/
noncomputable def received (p : Plan) (D : ℕ) : ℕ :=
  p.arrivals (D * p.regionWords) (D * p.regionWords + p.regionWords)

/-- No word comes to the part of a region behind the end of the fill. -/
lemma Target.arrivals_eq {i D : ℕ} (ht : p.Target done i z D) (hp : p.Valid) :
    p.arrivals (D * p.regionWords) (z.fillEnd p.regionWords p.objs D) = p.received D := by
  rw [received, arrivals, arrivals]
  congr 1
  ext x
  simp only [Finset.mem_filter, Finset.mem_Ico]
  refine and_congr_left fun harrives => and_congr_right fun h1 => ?_
  obtain ⟨w, hw, rfl, -⟩ := harrives
  exact ⟨fun h2 => lt_of_lt_of_le h2 (min_le_right _ _), ht.forward_lt_fillEnd hp hw h1⟩

/-- Data is copied to region `r`. -/
def Receives (p : Plan) (r : ℕ) : Prop :=
  ∃ z ∈ p.zones, z.Receives p.regionWords p.objs r

lemma Freed.receives {taken : ℕ → ℕ → Prop} (h : p.Freed taken r) : p.Receives r :=
  h.imp fun _ hz => ⟨hz.1, hz.2.1⟩

/-- The regions of dense prefixes are no destinations. -/
lemma Divides.not_receives (hdivides : p.Divides tasks) (hp : p.Valid) (htask : task ∈ tasks)
    (h1 : task.regionBeg ≤ r) (h2 : r < task.regionEnd) : ¬p.Receives r := by
  rintro ⟨z', hz', hreceives⟩
  obtain ⟨z, hz, h3, h4, h5⟩ := hdivides.part task htask
  have hlast := hreceives.lt_last (hp.ordered z' hz')
  have hpart : p.Part (fun _ => False) task.space z task := ⟨rfl, hz, h3, h4, h5, fun _ _ _ => id⟩
  exact hpart.not_mem_of_keep_le hp hz' hreceives.1 hlast ⟨h1, h2⟩

/-- A region that feeds a destination lies behind a region that receives data. -/
lemma receives_of_feeds {q : ℕ} (hz : z ∈ p.zones) (hp : p.Valid) (h2 : r < z.last)
    (hfeeds : z.Feeds p.regionWords p.objs r q) : p.Receives q := by
  refine ⟨z, hz, hfeeds.keep_le, lt_of_lt_of_le hfeeds.2.1 ?_⟩
  have hz' := hp.ordered z hz
  have hlast := Nat.mul_le_mul_right p.regionWords (show r + 1 ≤ z.last from h2)
  rw [Zone.newTop]
  rcases le_total ((r + 1) * p.regionWords) z.top with hle | hle
  · exact z.packed_mono _ _ hle
  · exact le_of_eq (Zone.packed_top (hp.bounds hz) hz' hle hlast)

open Classical in
/-- As long as a region is to be filled, one of those is free. -/
theorem exists_freed (hp : p.Valid) (hr : p.Receives r) (hnot : ¬done r) :
    ∃ x, p.Freed (fun q _ => done q) x ∧ ¬done x := by
  -- The first region that is not filled waits for no other one.
  have hexists : ∃ x, p.Receives x ∧ ¬done x := ⟨r, hr, hnot⟩
  obtain ⟨⟨z, hz, hreceives⟩, hfirst⟩ := Nat.find_spec hexists
  refine ⟨Nat.find hexists,
    ⟨z, hz, hreceives, Zone.owed_eq_zero_iff.2 fun q hlt hfeeds => ?_⟩, hfirst⟩
  have hmin := Nat.find_min hexists hlt
  by_contra hnot
  exact hmin ⟨receives_of_feeds hz hp (hreceives.lt_last (hp.ordered z hz)) hfeeds, hnot⟩

end Plan

namespace Upkeep

variable {μ : Type} [ObjectModel μ] {K : Upkeep μ p} {s s' : Stage μ}

/-- What holds of every stage of a compaction that began with some tasks. -/
structure Tracks (K : Upkeep μ p) (tasks : List PrefixTask) (s : Stage μ) : Prop where
  closes : K.ClosesHoles
  rests : K.Rests s.Done s.heap
  perm : (s.ran ++ s.tasks).Perm tasks
  /-- No region is claimed twice. -/
  nodup : (s.filled ++ s.queued).Nodup
  mem_claimed : ∀ r, r ∈ s.filled ++ s.queued ↔ p.Freed (fun q _ => s.Done q) r
  regionsFilled : s.totals.regionsFilled = s.filled.length
  wordsCopied : s.totals.wordsCopied = (s.filled.map p.received).sum
  prefixRegions : s.totals.prefixRegions
    = (s.ran.map fun task => task.regionEnd - task.regionBeg).sum

namespace Tracks

lemma not_filled (htracks : K.Tracks tasks s) (hr : r ∈ s.queued) : r ∉ s.filled := fun hfilled =>
  List.disjoint_of_nodup_append htracks.nodup hfilled hr

lemma not_done (htracks : K.Tracks tasks s) (hp : p.Valid) (hdivides : p.Divides tasks)
    (hr : r ∈ s.queued) : ¬s.Done r := by
  rintro (hfilled | ⟨task, hran, h1, h2⟩)
  · exact htracks.not_filled hr hfilled
  · have hfreed := (htracks.mem_claimed r).1 (List.mem_append_right _ hr)
    exact hdivides.not_receives hp (htracks.perm.subset (List.mem_append_left _ hran)) h1 h2
      hfreed.receives

/-- A waiting region can be filled. -/
lemma target (htracks : K.Tracks tasks s) (hp : p.Valid) (hdivides : p.Divides tasks)
    (hr : r ∈ s.queued) :
    ∃ i z, p.Target s.Done i z r := by
  obtain ⟨z, hz, hfreed⟩ := (htracks.mem_claimed r).1 (List.mem_append_right _ hr)
  obtain ⟨i, hi⟩ := List.mem_iff_getElem?.1 hz
  exact ⟨i, z, hi, hfreed, htracks.not_done hp hdivides hr⟩

/-- A waiting task can be run. -/
lemma part (htracks : K.Tracks tasks s) (hp : p.Valid) (hdivides : p.Divides tasks)
    (htask : task ∈ s.tasks) :
    ∃ z, p.Part s.Done task.space z task := by
  have hmem := htracks.perm.subset (List.mem_append_right _ htask)
  obtain ⟨z, hz, h1, h2, h3⟩ := hdivides.part task hmem
  refine ⟨z, rfl, hz, h1, h2, h3, fun r hr1 hr2 hdone => ?_⟩
  rcases hdone with hfilled | ⟨task', hran, g1, g2⟩
  · have hfreed := (htracks.mem_claimed r).1 (List.mem_append_left _ hfilled)
    exact hdivides.not_receives hp hmem hr1 hr2 hfreed.receives
  · have hapart :=
      (List.pairwise_append.1 (htracks.perm.symm.pairwise hdivides.apart fun h => h.symm)).2.2 task'
        hran task htask
    omega

/-- Which regions are free does not depend on the dense prefixes. -/
lemma freed_update (htracks : K.Tracks tasks s) (hp : p.Valid) (hdivides : p.Divides tasks)
    (htask : task ∈ s.tasks) :
    p.Freed (fun q _ => s.Done q ∨ (task.regionBeg ≤ q ∧ q < task.regionEnd)) r
      ↔ p.Freed (fun q _ => s.Done q) r := by
  obtain ⟨z, hpart⟩ := htracks.part hp hdivides htask
  refine hp.freed_congr (fun z' hz' q x _ h2 hlt hfeeds => or_iff_left ?_) r
  exact hpart.not_mem_of_keep_le hp hz' hfeeds.keep_le (lt_trans hlt h2)

/-- Filling a waiting region goes well, and leads to the next stage. -/
theorem fill (htracks : K.Tracks tasks s) (hp : p.Valid) (hdivides : p.Divides tasks)
    (hr : r ∈ s.queued) :
    Heap.Leads K.may (Heap.fillRegion r) s.heap fun out h =>
      K.Tracks tasks (s.fill r out.1 out.2 h) := by
  obtain ⟨i, z, htarget⟩ := htracks.target hp hdivides hr
  refine (Heap.fillRegion_leads hp htarget htracks.rests).mono fun out h => ?_
  rintro ⟨hrests, hcopied, hnodup, hmem⟩
  have hperm : ((s.fill r out.1 out.2 h).filled ++ (s.fill r out.1 out.2 h).queued).Perm
      ((s.filled ++ s.queued) ++ out.1) := by
    show (r :: s.filled ++ (out.1 ++ s.queued.erase r)).Perm ((s.filled ++ s.queued) ++ out.1)
    calc r :: s.filled ++ (out.1 ++ s.queued.erase r)
        |>.Perm (r :: s.filled ++ (s.queued.erase r ++ out.1)) :=
          (List.perm_append_comm).append_left _
      _ |>.Perm (s.filled ++ (r :: s.queued.erase r) ++ out.1) := by
        rw [← List.append_assoc]
        exact List.perm_middle.symm.append_right _
      _ |>.Perm ((s.filled ++ s.queued) ++ out.1) :=
        ((List.perm_cons_erase hr).symm.append_left _).append_right _
  refine ⟨htracks.closes, ?_, htracks.perm, ?_, fun x => ?_, ?_, ?_, htracks.prefixRegions⟩
  · rw [Stage.done_fill]
    exact hrests
  · refine hperm.nodup_iff.2 (List.nodup_append'.2 ⟨htracks.nodup, hnodup, fun x hx hx' => ?_⟩)
    exact ((hmem x).1 hx').2 ((htracks.mem_claimed x).1 hx)
  · rw [hperm.mem_iff, List.mem_append, htracks.mem_claimed, hmem, Stage.done_fill]
    by_cases hold : p.Freed (fun q _ => s.Done q) x
    · exact iff_of_true (Or.inl hold) (hold.mono fun _ _ => Or.inl)
    · simp only [hold, not_false_eq_true, and_true, false_or]
  · exact congrArg Nat.succ htracks.regionsFilled
  · show s.totals.wordsCopied + out.2 = p.received r + (s.filled.map p.received).sum
    rw [htracks.wordsCopied, hcopied, htarget.arrivals_eq hp, add_comm]

/-- Running a waiting task goes well, and leads to the next stage. -/
theorem update (htracks : K.Tracks tasks s) (hp : p.Valid) (hdivides : p.Divides tasks)
    (htask : task ∈ s.tasks) :
    Heap.Leads K.may (Heap.updatePrefix task) s.heap fun _ h =>
      K.Tracks tasks (s.update task h) := by
  obtain ⟨z, hpart⟩ := htracks.part hp hdivides htask
  refine (Heap.updatePrefix_leads htracks.closes hp hpart htracks.rests).mono fun _ h hrests => ?_
  refine ⟨htracks.closes, ?_, ?_, htracks.nodup, fun x => ?_, htracks.regionsFilled,
    htracks.wordsCopied, ?_⟩
  · rw [Stage.done_update]
    exact hrests
  · exact (List.perm_middle.symm.trans ((List.perm_cons_erase htask).symm.append_left _)).trans
      htracks.perm
  · rw [Stage.done_update, htracks.freed_update hp hdivides htask]
    exact htracks.mem_claimed x
  · show s.totals.prefixRegions + (task.regionEnd - task.regionBeg)
      = (task.regionEnd - task.regionBeg)
      + (s.ran.map fun task => task.regionEnd - task.regionBeg).sum
    rw [htracks.prefixRegions, add_comm]

/-- Every step keeps track. -/
theorem step (htracks : K.Tracks tasks s) (hp : p.Valid) (hdivides : p.Divides tasks)
    (hstep : s.Step s') :
    K.Tracks tasks s' := by
  cases hstep with
  | fill mem eq => exact (htracks.fill hp hdivides mem).of_eq eq
  | update mem eq => exact (htracks.update hp hdivides mem).of_eq eq

/-- Every schedule keeps track. -/
theorem reach (htracks : K.Tracks tasks s) (hp : p.Valid) (hdivides : p.Divides tasks)
    (hsteps : Relation.ReflTransGen Stage.Step s s') : K.Tracks tasks s' := by
  induction hsteps with
  | refl => exact htracks
  | tail _ hstep ih => exact ih.step hp hdivides hstep

/-! ## Waiting regions -/

/-- A region that receives data is completed by filling it. -/
lemma done_iff (htracks : K.Tracks tasks s) (hp : p.Valid) (hdivides : p.Divides tasks)
    (hr : p.Receives r) :
    s.Done r ↔ r ∈ s.filled := by
  refine or_iff_left ?_
  rintro ⟨task, hran, h1, h2⟩
  exact hdivides.not_receives hp (htracks.perm.subset (List.mem_append_left _ hran)) h1 h2 hr

/-- A region is waiting as long as one is to be filled. -/
theorem exists_queued (htracks : K.Tracks tasks s) (hp : p.Valid) (hr : p.Receives r)
    (hnot : ¬s.Done r) :
    ∃ x, x ∈ s.queued := by
  obtain ⟨x, hfreed, hdone⟩ := Plan.exists_freed hp hr hnot
  refine ⟨x, (List.mem_append.1 ((htracks.mem_claimed x).2 hfreed)).resolve_left
    fun hfilled => hdone (Or.inl hfilled)⟩

/-- When no region is waiting, all have been filled. -/
theorem done_of_idle (htracks : K.Tracks tasks s) (hp : p.Valid) (hidle : s.queued = [])
    (hr : p.Receives r) : s.Done r := by
  by_contra hnot
  obtain ⟨x, hx⟩ := htracks.exists_queued hp hr hnot
  rw [hidle] at hx
  exact List.not_mem_nil hx

/-- What has been filled when no region is waiting. -/
theorem mem_filled_of_idle (htracks : K.Tracks tasks s) (hp : p.Valid) (hdivides : p.Divides tasks)
    (hidle : s.queued = []) :
    s.filled.Nodup ∧ ∀ r, r ∈ s.filled ↔ p.Receives r := by
  have hnodup := htracks.nodup
  have hmem := htracks.mem_claimed
  rw [hidle, List.append_nil] at hnodup hmem
  refine ⟨hnodup, fun r => ⟨fun hr => ((hmem r).1 hr).receives, fun hr => ?_⟩⟩
  exact (htracks.done_iff hp hdivides hr).1 (htracks.done_of_idle hp hidle hr)

end Tracks

end Upkeep

end MarkCompact
