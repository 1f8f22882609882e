import MarkCompact.Proofs.Dividing

/-!
# The regions that are claimed at first

Before any region is filled, those that receive data and owe none to another region are claimed.
Then the heap rests, and the claimed regions are the free ones.

Main statements: `claimReadySpaces_runs` (which regions are claimed), `claimFirst_runs` and
`beginCompaction_runs` (the first stage of a compaction).
-/

namespace MarkCompact

variable {p : Plan} {objs : List Span} {z : Zone} {b n r x : ℕ}

namespace Region

/-- The summary of a region that has been claimed and queued. -/
def claimedFirst (a : Region) : Region :=
  (a.withCount claimedCount).queued

lemma count_claimedFirst (a : Region) : a.claimedFirst.count = claimedCount :=
  a.count_withCount claimedCount

end Region

namespace RegionTable

variable {t t' t'' : RegionTable} {fresh fresh' : List ℕ}

/-- The tables differ in that the regions in `fresh` have been claimed and queued. -/
structure Claims (objs : List Span) (fresh : List ℕ) (t t' : RegionTable) : Prop where
  recounted : Recounted objs t t'
  regions : ∀ x, t'.regions.get x = if x ∈ fresh then (t.regions.get x).claimedFirst
    else t.regions.get x

lemma Claims.nil (objs : List Span) (t : RegionTable) : Claims objs [] t t :=
  ⟨.refl _ _, fun _ => by rw [if_neg List.not_mem_nil]⟩

lemma Claims.trans (h : Claims objs fresh t t') (h' : Claims objs fresh' t' t'')
    (hdisjoint : fresh.Disjoint fresh') :
    Claims objs (fresh' ++ fresh) t t'' := by
  refine ⟨h.recounted.trans h'.recounted, fun x => ?_⟩
  rw [h'.regions, h.regions]
  by_cases hx : x ∈ fresh
  · rw [if_neg (hdisjoint hx), if_pos hx, if_pos (List.mem_append_right _ hx)]
  · simp only [List.mem_append, hx, or_false, if_false]

lemma claims_setRegion (ht : t.Laid) (hr : r < t.geometry.regionCount) :
    Claims objs [r] t (t.setRegion r (t.regions.get r).claimedFirst) := by
  refine ⟨recounted_setRegion ht hr ?_ rfl rfl, fun x => ?_⟩
  · exact (Region.sameLoad_withCount _ _).trans (Region.sameLoad_queued _)
  · rw [setRegion, Table.get_set]
    by_cases hx : r = x
    · rw [if_pos ⟨hx, by rw [ht.regions_size]; exact hr⟩, if_pos (List.mem_singleton.2 hx.symm), hx]
    · rw [if_neg fun h => hx h.1, if_neg fun h => hx (List.mem_singleton.1 h).symm]

end RegionTable

namespace Heap

variable {μ : Type} {h : Heap μ} {claimed : List ℕ}

/-- The regions of a range that owe no data are claimed, the last one first. -/
theorem claimReady_runs (objs : List Span) (ht : h.table.Laid)
    (hn : b + n ≤ h.table.geometry.regionCount)
    (hpushed : ∀ x, b ≤ x → x < b + n → (h.table.regions.get x).pushed = false) :
    Runs (claimReady n (b + n) claimed) h fun out h' => ∃ t fresh, h' = { h with table := t }
      ∧ out = fresh ++ claimed
      ∧ h.table.Claims objs fresh t ∧ fresh.Nodup
      ∧ ∀ x, x ∈ fresh ↔ (b ≤ x ∧ x < b + n) ∧ (h.table.regions.get x).count = 0 := by
  induction n generalizing h claimed with
  | zero =>
    rw [claimReady, runs_pure]
    exact ⟨h.table, [], rfl, rfl, .nil _ _, List.nodup_nil,
      fun x => iff_of_false List.not_mem_nil fun hx => by omega⟩
  | succ n ih =>
    have hr : b + n < h.table.geometry.regionCount := by omega
    rw [claimReady, runs_bind, runs_get, runs_bind, show b + (n + 1) - 1 = b + n from rfl,
      RegionTable.Laid.region_eq hr, runs_check_ok, Region.claimAlone_eq]
    by_cases hcount : (h.table.regions.get (b + n)).count = 0
    · have hclaims : h.table.Claims objs [b + n] _ := RegionTable.claims_setRegion ht hr
      have hshape := hclaims.recounted.shape
      have hpushed' : ∀ x, b ≤ x → x < b + n →
          ((h.table.setRegion (b + n) (h.table.regions.get (b + n)).claimedFirst).regions.get
            x).pushed = false :=
        fun x h1 h2 => by
          rw [hclaims.regions, if_neg fun hx => absurd (List.mem_singleton.1 hx) (by omega)]
          exact hpushed x h1 (by omega)
      rw [if_pos hcount]
      dsimp only
      rw [Region.notePushed_eq
        ((Region.pushed_withCount _ _).trans (hpushed (b + n) (by omega) (by omega))), runs_bind,
        runs_check_ok, runs_bind, runs_modify]
      change Runs (claimReady n (b + n) ((b + n) :: claimed))
        { h with table := h.table.setRegion (b + n) (h.table.regions.get (b + n)).claimedFirst } _
      refine Runs.mono (ih (hshape.laid ht) (by rw [hshape.geometry]; omega) hpushed')
        fun out h' => ?_
      rintro ⟨t, fresh, rfl, rfl, hclaims', hnodup, hmem⟩
      have hnot : b + n ∉ fresh := fun hx => absurd ((hmem _).1 hx).1.2 (by omega)
      refine ⟨t, fresh ++ [b + n], rfl, by rw [List.append_assoc]; rfl, hclaims.trans hclaims' ?_,
        ?_, fun x => ?_⟩
      · exact List.singleton_disjoint.2 hnot
      · exact List.nodup_append'.2 ⟨hnodup, List.nodup_singleton _, List.disjoint_singleton.2 hnot⟩
      · rw [List.mem_append, hmem, List.mem_singleton, hclaims.regions]
        by_cases hx : x = b + n
        · subst hx
          exact iff_of_true (Or.inr rfl) ⟨by omega, hcount⟩
        · rw [if_neg fun h => hx (List.mem_singleton.1 h), or_iff_left hx]
          exact and_congr_left fun _ => by omega
    · rw [if_neg hcount]
      refine (ih ht (by omega) fun x h1 h2 => hpushed x h1 (by omega)).mono fun out h' => ?_
      rintro ⟨t, fresh, rfl, rfl, hclaims, hnodup, hmem⟩
      refine ⟨t, fresh, rfl, rfl, hclaims, hnodup, fun x => ?_⟩
      rw [hmem]
      refine and_congr_left fun hx => ?_
      have : x ≠ b + n := fun heq => hcount (heq ▸ hx)
      omega

/-- The regions of several spaces that receive data and owe none are claimed. -/
theorem claimReadySpaces_runs {spaces : List Space} {zones : List Zone} (hserves : p.Serves h)
    (hp : p.Valid) (hmatches : List.Forall₂
      (fun s z => s.Matches p.covered p.regionWords p.objs z) spaces zones)
    (hsub : ∀ z ∈ zones, z ∈ p.zones) (hapart : zones.Pairwise Zone.Apart)
    (hpushed : ∀ z ∈ zones, ∀ x, z.first ≤ x → x < z.last →
      (h.table.regions.get x).pushed = false) :
    Runs (claimReadySpaces spaces claimed) h fun out h' => ∃ t fresh, h' = { h with table := t }
      ∧ out = fresh ++ claimed
      ∧ h.table.Claims p.objs fresh t ∧ fresh.Nodup
      ∧ ∀ x, x ∈ fresh ↔ (∃ z ∈ zones, z.Receives p.regionWords p.objs x)
      ∧ (h.table.regions.get x).count = 0 := by
  induction hmatches generalizing h claimed with
  | nil =>
    rw [claimReadySpaces, runs_pure]
    exact ⟨h.table, [], rfl, rfl, .nil _ _, List.nodup_nil, fun x => by simp⟩
  | @cons s z spaces zones hs _ ih =>
    have hz := hsub z List.mem_cons_self
    have hord := hp.ordered z hz
    have hlaid := hserves.loaded.laid
    have hreceives : ∀ x, z.Receives p.regionWords p.objs x → x < z.last :=
      fun x hx => hx.lt_last hord
    obtain ⟨count, hregion, hregionUpTo, hlast, hrange⟩ := hserves.exists_destinations hp hz hs
    simp only [claimReadySpaces, runs_bind, runs_get]
    rw [hregion, runs_check_ok, hregionUpTo, runs_check_ok, Nat.add_sub_cancel_left]
    have hfirst : ∀ x, z.keep ≤ x → x < z.keep + count → (h.table.regions.get x).pushed = false :=
      fun x h1 h2 =>
      hpushed z List.mem_cons_self x (le_trans hord.first_le_keep h1)
        (hreceives x ((hrange x).1 ⟨h1, h2⟩))
    refine (claimReady_runs p.objs hlaid (le_trans hlast (hserves.loaded.last_le hp hz))
      hfirst).mono fun out h₁ => ?_
    rintro ⟨t, fresh, rfl, rfl, hclaims, hnodup, hmem⟩
    have hin : ∀ x, x ∈ fresh ↔ z.Receives p.regionWords p.objs x
        ∧ (h.table.regions.get x).count = 0 := fun x => by
      rw [hmem, hrange]
    -- A region of one of the other spaces is not among the claimed ones.
    have hout : ∀ z' ∈ zones, ∀ x, z'.first ≤ x → x < z'.last → x ∉ fresh :=
      fun z' hz' x h1 h2 hx => by
      have hrec := ((hin x).1 hx).1
      have hfirst := le_trans hord.first_le_keep hrec.1
      have hlt := hreceives x hrec
      rcases List.rel_of_pairwise_cons hapart hz' with hle | hle <;> omega
    have hserves₁ : p.Serves { h with table := t } :=
      hserves.advance hclaims.recounted.toAdvances rfl rfl rfl hserves.spaces
    refine Runs.mono (ih hserves₁
      (fun z' hz' => hsub z' (List.mem_cons_of_mem _ hz')) hapart.of_cons
      fun z' hz' x h1 h2 => ?_) fun out h' => ?_
    · show (t.regions.get x).pushed = false
      rw [hclaims.regions, if_neg (hout z' hz' x h1 h2)]
      exact hpushed z' (List.mem_cons_of_mem _ hz') x h1 h2
    · rintro ⟨t', fresh', rfl, rfl, hclaims', hnodup', hmem'⟩
      have hmem'' : ∀ x, x ∈ fresh' ↔ (∃ z' ∈ zones, z'.Receives p.regionWords p.objs x)
          ∧ (h.table.regions.get x).count = 0 :=
        fun x => by
        rw [hmem']
        refine and_congr_right fun hreceives' => ?_
        obtain ⟨z', hz', hrec⟩ := hreceives'
        have hord' := hp.ordered z' (hsub z' (List.mem_cons_of_mem _ hz'))
        rw [show ({ h with table := t } : Heap μ).table = t from rfl, hclaims.regions,
          if_neg (hout z' hz' x (le_trans hord'.first_le_keep hrec.1) (hrec.lt_last hord'))]
      have hdisjoint : fresh.Disjoint fresh' := fun x hx hx' => by
        obtain ⟨⟨z', hz', hrec⟩, _⟩ := (hmem'' x).1 hx'
        have hord' := hp.ordered z' (hsub z' (List.mem_cons_of_mem _ hz'))
        exact hout z' hz' x (le_trans hord'.first_le_keep hrec.1) (hrec.lt_last hord') hx
      refine ⟨t', fresh' ++ fresh, rfl, by rw [List.append_assoc], hclaims.trans hclaims' hdisjoint,
        List.nodup_append'.2 ⟨hnodup', hnodup, hdisjoint.symm⟩, fun x => ?_⟩
      rw [List.mem_append, hin, hmem'', List.exists_mem_cons_iff, or_and_right, or_comm]

end Heap

namespace Plan.Unbegun

variable {μ : Type} {h : Heap μ} {t : RegionTable} {fresh : List ℕ} (hu : p.Unbegun h)
  (hp : p.Valid) (hclaims : h.table.Claims p.objs fresh t)
  (hmem : ∀ x, x ∈ fresh ↔ (∃ z ∈ p.zones, z.Receives p.regionWords p.objs x)
    ∧ (h.table.regions.get x).count = 0)

include hu in
/-- The count of a region is what it owes. -/
lemma count_eq (hz : z ∈ p.zones) (h1 : z.keep ≤ x) (h2 : x < z.last) :
    (h.table.regions.get x).count = z.owed p.regionWords p.objs (fun _ => False) x := by
  rw [(hu.untouched z hz).count x h1 h2, hu.serves.loaded.regionWords_eq]
  exact (Zone.owed_eq_touched p.regionWords_pos h1 fun _ => id).symm

include hu hp

include hmem in
/-- The regions that are claimed at first are the free ones. -/
lemma mem_iff : x ∈ fresh ↔ p.Freed (fun _ _ => False) x := by
  rw [hmem]
  constructor
  · rintro ⟨⟨z, hz, hrec⟩, hcount⟩
    exact ⟨z, hz, hrec, hu.count_eq hz hrec.1 (hrec.lt_last (hp.ordered z hz)) ▸ hcount⟩
  · rintro ⟨z, hz, hrec, howed⟩
    exact ⟨⟨z, hz, hrec⟩, (hu.count_eq hz hrec.1 (hrec.lt_last (hp.ordered z hz))).trans howed⟩

include hclaims hmem

/-- The counts once the first regions are claimed. -/
lemma counted : p.Counted t (fun _ => False) fun _ _ => False where
  count z hz r h1 h2 := by
    have hfreed : p.Freed (fun _ _ => False) r ↔ z.Freed p.regionWords p.objs (fun _ => False) r :=
      hp.freed_iff hz h1 h2
    rw [hclaims.regions]
    split
    case isTrue hin =>
      rw [Zone.countOf_of_freed (hfreed.1 ((hu.mem_iff hp hmem).1 hin)) not_false,
        Region.count_claimedFirst]
    case isFalse hout =>
      rw [Zone.countOf_of_not_freed fun h => hout ((hu.mem_iff hp hmem).2 (hfreed.2 h))]
      exact hu.count_eq hz h1 h2
  pushed z hz r h1 h2 := by
    have hfreed : p.Freed (fun _ _ => False) r ↔ z.Freed p.regionWords p.objs (fun _ => False) r :=
      hp.freed_iff hz h1 h2
    rw [← hfreed, ← hu.mem_iff hp hmem, hclaims.regions]
    split
    case isTrue hin => exact iff_of_true rfl hin
    case isFalse hout =>
      refine iff_of_false (fun h => ?_) hout
      rw [(hu.untouched z hz).pushed r (le_trans (hp.ordered z hz).first_le_keep h1) h2] at h
      exact Bool.false_ne_true h
  kept z hz r h1 h2 := by
    refine Or.inr ⟨id, ?_⟩
    rw [hclaims.regions, if_neg fun hin => ?_]
    · exact (hu.untouched z hz).kept r h1 h2
    · obtain ⟨z', hz', hrec, _⟩ := (hu.mem_iff hp hmem).1 hin
      have hord := hp.ordered z hz
      have hord' := hp.ordered z' hz'
      have hkeep := hord.keep_le_last p.regionWords_pos
      obtain rfl :=
        hp.eq_of_region hz hz' h1 (by omega) (le_trans hord'.first_le_keep hrec.1)
          (hrec.lt_last hord')
      exact absurd hrec.1 (by omega)

/-- Then the heap rests. -/
theorem rests [ObjectModel μ] {K : Upkeep μ p}
    (hreached : ∃ g, K.Reaches (p.Settled fun _ => False) (fun _ => False) (fun _ => False) g h) :
    K.Rests (fun _ => False) { h with table := t } := by
  obtain ⟨g, hg⟩ := hreached
  have hserves : p.Serves { h with table := t } :=
    hu.serves.advance hclaims.recounted.toAdvances rfl rfl rfl hu.serves.spaces
  refine ⟨⟨g, { hg with holds := K.withTable hg.holds hserves, updated_iff := fun o => ?_ }⟩,
    hu.counted hp hclaims hmem, ?_⟩
  · rw [hg.updated_iff]
    exact ⟨False.elim, fun h => h.2.1⟩
  · exact ⟨fun _ _ _ _ _ h => h.elim, fun _ _ _ _ _ h => h.elim⟩

end Plan.Unbegun

namespace Heap

variable {μ : Type} [ObjectModel μ] {h : Heap μ} {workers tasksPerWorker : ℕ}

omit [ObjectModel μ] in
/-- The first stage of a compaction: dense prefixes are divided, and the regions that can be filled
right away are claimed. -/
def beginCompaction (workers tasksPerWorker : ℕ) : HeapAction μ (Stage μ) := do
  let h ← get
  let tasks ← check (h.prefixTasks workers tasksPerWorker)
  let queued ← claimReadySpaces h.spaces.reverse []
  let heap ← get
  pure { heap, queued, tasks }

/-- Once the first regions are claimed a compaction keeps track, whatever its tasks are. -/
theorem claimFirst_runs {K : Upkeep μ p} (hK : K.ClosesHoles) (hu : p.Unbegun h) (hp : p.Valid)
    (hreached : ∃ g, K.Reaches (p.Settled fun _ => False) (fun _ => False) (fun _ => False) g h)
    (tasks : List PrefixTask) :
    Runs (claimReadySpaces h.spaces.reverse []) h fun queued h' => (∃ table, h' = { h with table })
      ∧ K.Tracks tasks { heap := h', queued, tasks } := by
  refine Runs.mono (claimReadySpaces_runs hu.serves hp (List.forall₂_reverse_iff.2 hu.serves.spaces)
    (fun z hz => List.mem_reverse.1 hz) (List.pairwise_reverse.2 (hp.apart.imp Or.symm))
      fun z hz x h1 h2 =>
      (hu.untouched z (List.mem_reverse.1 hz)).pushed x h1 h2) fun queued h' => ?_
  rintro ⟨t, fresh, rfl, rfl, hclaims, hnodup, hmem⟩
  rw [List.append_nil]
  simp only [List.mem_reverse] at hmem
  have hdone : ({ heap := { h with table := t }, queued := fresh, tasks } : Stage μ).Done
      = fun _ => False :=
    funext fun r => by simp [Stage.Done]
  refine ⟨⟨t, rfl⟩, hK, ?_, .refl _, hnodup, fun r => ?_, rfl, rfl, rfl⟩
  · rw [hdone]
    exact hu.rests hp hclaims hmem hreached
  · rw [hdone]
    exact hu.mem_iff hp hmem

/-- From the first stage on a compaction keeps track. -/
theorem beginCompaction_runs {K : Upkeep μ p} (hK : K.ClosesHoles) (hu : p.Unbegun h) (hp : p.Valid)
    (hreached : ∃ g, K.Reaches (p.Settled fun _ => False) (fun _ => False) (fun _ => False) g h)
    (hworkers : 0 < workers) (hmany : workers * max tasksPerWorker 1 < wordValues) :
    Runs (beginCompaction workers tasksPerWorker) h fun s h' =>
      s.heap = h' ∧ (∃ table, h' = { h with table })
      ∧ ∃ tasks, p.Divides tasks ∧ K.Tracks tasks s := by
  obtain ⟨tasks, heq, hdivides⟩ := prefixTasks_eq hu hp hworkers hmany
  rw [beginCompaction, runs_bind, runs_get, heq, runs_bind, runs_check_ok, runs_bind]
  refine (claimFirst_runs hK hu hp hreached tasks).mono fun queued h' => ?_
  rintro ⟨htable, htracks⟩
  rw [runs_bind, runs_get, runs_pure]
  exact ⟨rfl, htable, tasks, hdivides, htracks⟩

end Heap

end MarkCompact
