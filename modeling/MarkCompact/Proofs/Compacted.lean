import MarkCompact.Proofs.Finishing
import MarkCompact.Proofs.Frames

/-!
# What compaction comes to

`p.Compacted h` is what holds of a heap when its plan has been carried out: every live word is at
its place with its references redirected, the holes of the dense prefixes are fillers, every other
word is as it was, and exactly the starts of objects and fillers are recorded.  The plan determines
all of this, whatever the order in which regions were filled.

Main statements: `Upkeep.Finishes.compacted` (a compaction that has finished leaves such a heap),
`Compacted.word_eq` and `Compacted.recorded_eq` (two of them agree), `Upkeep.Tracks.totals_eq` (what
was done is counted alike).
-/

namespace MarkCompact

variable {p : Plan} {updated : List Span} {tasks : List PrefixTask} {o : Span}
  {z : Zone} {r w x : ℕ}

namespace Plan

/-! ## What is to be done -/

/-- The region belongs to a dense prefix. -/
def InPrefix (p : Plan) (r : ℕ) : Prop :=
  ∃ z ∈ p.zones, z.first ≤ r ∧ r < z.keep

/-- The region is completed once compaction is. -/
def Finished (p : Plan) (r : ℕ) : Prop :=
  p.InPrefix r ∨ p.Receives r

open Classical in
/-- The regions of the dense prefixes. -/
noncomputable def keptRegions (p : Plan) : List ℕ :=
  (List.range p.covered.words).filter fun r => p.InPrefix r

open Classical in
/-- The regions that receive data. -/
noncomputable def receivers (p : Plan) : List ℕ :=
  (List.range p.covered.words).filter fun r => p.Receives r

open Classical in
/-- The objects that are split over destination regions. -/
noncomputable def splitObjects (p : Plan) : List Span :=
  p.objs.filter fun o => p.Split o

/-- What a compaction does. -/
noncomputable def totals (p : Plan) : CompactTotals where
  regionsFilled := p.receivers.length
  wordsCopied := (p.receivers.map p.received).sum
  prefixRegions := p.keptRegions.length
  deferredObjects := p.splitObjects.length

lemma complete_finished : p.Complete p.Finished where
  prefixes z hz _ h1 h2 := Or.inl ⟨z, hz, h1, h2⟩
  destinations _ hr := Or.inr hr

namespace Valid

variable (hp : p.Valid)
include hp

/-- The number of a region is less than that of the last word. -/
lemma lt_words (hz : z ∈ p.zones) (hr : r < z.last) : r < p.covered.words := by
  have hlast := (hp.ordered z hz).last_le
  have hle := Nat.le_mul_of_pos_right z.last p.regionWords_pos
  omega

lemma mem_keptRegions : r ∈ p.keptRegions ↔ p.InPrefix r := by
  simp only [keptRegions, List.mem_filter, List.mem_range, decide_eq_true_eq]
  refine and_iff_right_of_imp ?_
  rintro ⟨z, hz, _, hr⟩
  exact hp.lt_words hz (lt_of_lt_of_le hr ((hp.ordered z hz).keep_le_last p.regionWords_pos))

lemma mem_receivers : r ∈ p.receivers ↔ p.Receives r := by
  simp only [receivers, List.mem_filter, List.mem_range, decide_eq_true_eq]
  refine and_iff_right_of_imp ?_
  rintro ⟨z, hz, hr⟩
  exact hp.lt_words hz (hr.lt_last (hp.ordered z hz))

end Valid

lemma mem_splitObjects : o ∈ p.splitObjects ↔ o ∈ p.objs ∧ p.Split o := by
  simp only [splitObjects, List.mem_filter, decide_eq_true_eq]

/-- Tasks that divide the dense prefixes have as many regions as these. -/
lemma Divides.sum_eq (hdivides : p.Divides tasks) (hp : p.Valid) :
    (tasks.map fun task => task.regionEnd - task.regionBeg).sum = p.keptRegions.length := by
  have hnodup : (tasks.flatMap
      fun task => List.range' task.regionBeg (task.regionEnd - task.regionBeg)).Nodup := by
    refine List.nodup_flatMap.2
      ⟨fun task _ => List.nodup_range', hdivides.apart.imp fun {a b} hapart => ?_⟩
    intro r ha hb
    rw [List.mem_range'_1] at ha hb
    omega
  have hperm : (tasks.flatMap
      fun task => List.range' task.regionBeg (task.regionEnd - task.regionBeg)).Perm
        p.keptRegions := by
    refine (List.perm_ext_iff_of_nodup hnodup (List.nodup_range.filter _)).2 fun r => ?_
    rw [← keptRegions, hp.mem_keptRegions, List.mem_flatMap]
    constructor
    · rintro ⟨task, htask, hr⟩
      obtain ⟨z, hz, h1, _, h3⟩ := hdivides.part task htask
      rw [List.mem_range'_1] at hr
      exact ⟨z, List.mem_of_getElem? hz, by omega, by omega⟩
    · rintro ⟨z, hz, h1, h2⟩
      obtain ⟨task, htask, h3, h4⟩ := hdivides.covers z hz r h1 h2
      exact ⟨task, htask, List.mem_range'_1.2 (by omega)⟩
  rw [← hperm.length_eq, List.length_flatMap]
  simp only [List.length_range']

end Plan

namespace Upkeep.Tracks

variable {μ : Type} [ObjectModel μ] {K : Upkeep μ p} {s : Stage μ} (htracks : K.Tracks tasks s)
  (hp : p.Valid) (hdivides : p.Divides tasks) (hqueued : s.queued = []) (htasks : s.tasks = [])
include htracks hp hdivides hqueued htasks

/-- When nothing waits any more, everything is completed. -/
theorem done_eq : s.Done = p.Finished := by
  have hfilled := htracks.mem_filled_of_idle hp hdivides hqueued
  have hperm : s.ran.Perm tasks := by simpa [htasks] using htracks.perm
  refine funext fun r => propext ⟨?_, ?_⟩
  · rintro (hr | ⟨task, htask, h1, h2⟩)
    · exact Or.inr ((hfilled.2 r).1 hr)
    · obtain ⟨z, hz, h3, _, h4⟩ := hdivides.part task (hperm.mem_iff.1 htask)
      exact Or.inl ⟨z, List.mem_of_getElem? hz, by omega, by omega⟩
  · rintro (⟨z, hz, h1, h2⟩ | hr)
    · obtain ⟨task, htask, h3, h4⟩ := hdivides.covers z hz r h1 h2
      exact Or.inr ⟨task, hperm.mem_iff.2 htask, h3, h4⟩
    · exact Or.inl ((hfilled.2 r).2 hr)

/-- When nothing waits any more, what was done is what the plan says. -/
theorem totals_eq {late : List Span} (hnodup : late.Nodup)
    (hlate : ∀ o, o ∈ late ↔ o ∈ p.objs ∧ p.Split o) (hobjs : p.objs.Nodup) :
    { s.totals with deferredObjects := late.length } = p.totals := by
  have hfilled := htracks.mem_filled_of_idle hp hdivides hqueued
  have hregions : s.filled.Perm p.receivers :=
    (List.perm_ext_iff_of_nodup hfilled.1 (List.nodup_range.filter _)).2 fun r =>
      (hfilled.2 r).trans hp.mem_receivers.symm
  have hran : s.ran.Perm tasks := by simpa [htasks] using htracks.perm
  have hsplit : late.Perm p.splitObjects :=
    (List.perm_ext_iff_of_nodup hnodup (hobjs.filter _)).2 fun o =>
      (hlate o).trans Plan.mem_splitObjects.symm
  have hsum := hdivides.sum_eq hp
  rw [← (hran.map _).sum_eq] at hsum
  show CompactTotals.mk s.totals.regionsFilled s.totals.wordsCopied s.totals.prefixRegions
    late.length = _
  rw [htracks.regionsFilled, htracks.wordsCopied, htracks.prefixRegions, hregions.length_eq,
    (hregions.map p.received).sum_eq, hsum, hsplit.length_eq]
  rfl

end Upkeep.Tracks

/-! ## What is left -/

namespace Plan

/-- Redirecting the references of all objects does not depend on the order. -/
lemma content_congr (hsep : Separate p.objs) (hupdated : ∀ o, o ∈ updated ↔ o ∈ p.objs)
    (hw : Live p.objs w) :
    p.content updated w = p.content p.objs w := by
  obtain ⟨o, ho, hcov⟩ := hw
  rw [content_of_mem hsep (fun o => (hupdated o).1) ((hupdated o).2 ho) hcov,
    content_of_mem hsep (fun _ => id) ho hcov]

/-- The plan has been carried out. -/
structure Compacted (p : Plan) (h : Heap MemoryImage) : Prop where
  serves : p.Serves h
  backs : h.image.Backs p.covered
  placed : ∀ w, Live p.objs w → h.image.word p.covered (p.forward w) = p.content p.objs w
  filled : ∀ o, p.Hole o → h.image.word p.covered o.start = MemoryImage.fillerHeader o.words
  /-- Other words are as they were. -/
  still : ∀ x, (∀ w, Live p.objs w → p.forward w ≠ x) → (∀ o, p.Hole o → o.start ≠ x) →
    h.image.word p.covered x = p.memory x
  starts : ∀ s ∈ h.spaces, s.starts.Between p.covered p.FinalStart p.FinalStart
  completed : ∀ z ∈ p.zones, ∀ r, z.first ≤ r → r < z.last →
    ((h.table.regions.get r).isCompleted = true ↔ p.Finished r)
  drained : ∀ z ∈ p.zones, ∀ r, z.keep ≤ r → r < z.last → ¬p.Receives r →
    (h.table.regions.get r).count = 0
  /-- Every object was updated once, when all of it was at its place. -/
  updates : ∃ updated, updated.Perm p.objs ∧ List.Forall₂ p.Traces h.updates updated

/-- When everything is completed, the counts say so. -/
lemma Counted.isCompleted_iff {t : RegionTable}
    (hcounted : p.Counted t p.Finished fun q _ => p.Finished q) (hp : p.Valid) (hz : z ∈ p.zones)
    (h1 : z.first ≤ r) (h2 : r < z.last) : (t.regions.get r).isCompleted = true ↔ p.Finished r := by
  rw [Region.isCompleted_iff]
  by_cases hkeep : z.keep ≤ r
  · have hprefix : ¬p.InPrefix r := by
      rintro ⟨z', hz', h3, h4⟩
      obtain rfl :=
        hp.eq_of_region hz hz' h1 h2 h3
          (lt_of_lt_of_le h4 ((hp.ordered z' hz').keep_le_last p.regionWords_pos))
      omega
    have howed : z.owed p.regionWords p.objs p.Finished r = 0 :=
      Zone.owed_eq_zero_iff.2 fun q _ hfeeds =>
      Or.inr (receives_of_feeds hz hp h2 hfeeds)
    rw [hcounted.count z hz r hkeep h2, Zone.countOf]
    by_cases hr : z.Receives p.regionWords p.objs r
    · have hfinished : p.Finished r := Or.inr ⟨z, hz, hr⟩
      rw [if_pos ⟨hr, howed⟩, if_pos hfinished]
      exact iff_of_true le_rfl hfinished
    · rw [if_neg fun hfreed => hr hfreed.1, howed]
      refine iff_of_false (by decide) ?_
      rintro (hin | ⟨z', hz', hr'⟩)
      · exact hprefix hin
      · obtain rfl :=
          hp.eq_of_region hz hz' h1 h2 ((hp.ordered z' hz').first_le_keep.trans hr'.1)
            (hr'.lt_last (hp.ordered z' hz'))
        exact hr hr'
  · have hfinished : p.Finished r := Or.inl ⟨z, hz, h1, not_le.1 hkeep⟩
    rcases hcounted.kept z hz r h1 (not_le.1 hkeep) with ⟨_, hcount⟩ | ⟨hnot, _⟩
    · exact iff_of_true hcount.ge hfinished
    · exact absurd hfinished hnot

/-- Then no region owes data. -/
lemma Counted.count_eq_zero {t : RegionTable}
    (hcounted : p.Counted t p.Finished fun q _ => p.Finished q) (hp : p.Valid) (hz : z ∈ p.zones)
    (h1 : z.keep ≤ r) (h2 : r < z.last) (hr : ¬p.Receives r) : (t.regions.get r).count = 0 := by
  have howed : z.owed p.regionWords p.objs p.Finished r = 0 :=
    Zone.owed_eq_zero_iff.2 fun q _ hfeeds =>
    Or.inr (receives_of_feeds hz hp h2 hfeeds)
  rw [hcounted.count z hz r h1 h2, Zone.countOf_of_not_freed fun hfreed => hr
    ⟨z, hz, hfreed.1⟩, howed]

end Plan

namespace Upkeep

/-- A compaction that has finished has carried the plan out. -/
theorem Finishes.compacted {hp : p.FitsMemory} {hsound : p.Sound} {infos : List Space}
    {late : List Span} {h : Heap MemoryImage}
    (hf : ((p.memoryUpkeep hp hsound).framed hp.toValid infos).Finishes p.Finished
      p.Receives late h) :
    p.Compacted h ∧ h.infos = infos := by
  have hvalid := hp.toValid
  obtain ⟨g, hg⟩ := hf.reached_all hvalid
  obtain ⟨hu, hinfos⟩ : p.Underway g h ∧ h.infos = infos := hg.holds
  have hfilled : ∀ w, Live p.objs w → g.filled (p.forward w) := fun w hw =>
    (hg.filled_iff _).2 (Or.inr (p.complete_finished.done_forward hvalid hw))
  have hclosed : ∀ o, p.Hole o → g.closed o.start := fun o ho => by
    obtain ⟨z, hz, hole⟩ := id ho
    have hpos := hole.pos
    have hpast := hole.past_le
    refine hg.closed o ho (Or.inl
      ⟨z, hz, (Nat.le_div_iff_mul_le p.regionWords_pos).2 hole.first_le, div_lt_of_lt_mul ?_⟩)
    rw [Span.past] at hpast
    omega
  refine ⟨?_, hinfos⟩
  constructor
  case serves => exact hu.serves
  case backs => exact hu.backs
  case placed =>
    intro w hw
    have hintact := hu.moved.intact w hw
    rw [Plan.location_of_filled (hfilled w hw)] at hintact
    rw [hintact, Plan.content_congr hp.separate hg.updated_iff hw]
  case filled =>
    intro o ho
    have hword := hu.holes o ho 0 (by obtain ⟨_, _, hole⟩ := ho; exact hole.pos)
    rw [Nat.add_zero, Plan.holeWord_of_closed (hclosed o ho)] at hword
    exact hword
  case still =>
    intro x hplaceless hx
    by_cases hin : ∃ o, p.Hole o ∧ o.Covers x
    · obtain ⟨o, ho, hcov⟩ := hin
      have hcov' := hcov
      rw [Span.Covers, Span.past] at hcov'
      have hword := hu.holes o ho (x - o.start) (by omega)
      have hne := hx o ho
      rw [show o.start + (x - o.start) = x by omega, Plan.holeWord, if_neg fun h => by omega,
        show o.start + (x - o.start) = x by omega] at hword
      exact hword
    · exact hu.spared x ⟨hplaceless, fun o ho hcov => hin ⟨o, ho, hcov⟩⟩
  case starts =>
    intro s hs
    refine (hu.recorded s hs).mono (fun i hi => ?_) fun _ => id
    rcases hi with ⟨o, ho, rfl⟩ | ⟨o, ho, rfl⟩
    · exact hg.noted o ((hg.updated_iff o).2 ho)
    · exact hg.noted_closed _ (hclosed o ho)
  case completed => exact fun z hz r h1 h2 => hf.counted.isCompleted_iff hvalid hz h1 h2
  case drained => exact fun z hz r h1 h2 => hf.counted.count_eq_zero hvalid hz h1 h2
  case updates =>
    exact ⟨g.updated, (List.perm_ext_iff_of_nodup hu.nodup hp.separate.nodup).2 hg.updated_iff,
      hu.traced⟩

end Upkeep

/-! ## It is determined by the plan -/

namespace Plan.Compacted

variable {h h' : Heap MemoryImage} (hc : p.Compacted h) (hc' : p.Compacted h')
include hc hc'

/-- The words of memory do not depend on how the plan was carried out. -/
theorem word_eq (x : ℕ) : h'.image.word p.covered x = h.image.word p.covered x := by
  by_cases hplace : ∃ w, Live p.objs w ∧ p.forward w = x
  · obtain ⟨w, hw, rfl⟩ := hplace
    rw [hc.placed w hw, hc'.placed w hw]
  · by_cases hhole : ∃ o, p.Hole o ∧ o.start = x
    · obtain ⟨o, ho, rfl⟩ := hhole
      rw [hc.filled o ho, hc'.filled o ho]
    · have hplaceless : ∀ w, Live p.objs w → p.forward w ≠ x := fun w hw heq => hplace ⟨w, hw, heq⟩
      have hfree : ∀ o, p.Hole o → o.start ≠ x := fun o ho heq => hhole ⟨o, ho, heq⟩
      rw [hc.still x hplaceless hfree, hc'.still x hplaceless hfree]

/-- Neither do the recorded starts. -/
theorem recorded_eq {i : ℕ} {s s' : Space} (hs : h.spaces[i]? = some s)
    (hs' : h'.spaces[i]? = some s') :
    s'.starts.covered = s.starts.covered ∧ ∀ card,
      s'.starts.recorded? card = s.starts.recorded? card := by
  obtain ⟨z, hz, hmatches⟩ := hc.serves.exists_zone hs
  obtain ⟨z', hz', hmatches'⟩ := hc'.serves.exists_zone hs'
  cases hz.symm.trans hz'
  have hcovered := hmatches'.starts.covered.trans hmatches.starts.covered.symm
  exact ⟨hcovered, (hc.starts s (List.mem_of_getElem? hs)).recorded_eq
    (hc'.starts s' (List.mem_of_getElem? hs')) hcovered⟩

end Plan.Compacted

end MarkCompact
