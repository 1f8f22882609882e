import MarkCompact.Proofs.LiveWords
import MarkCompact.Proofs.SoleMarker

/-!
# Marking computes reachability

Whoever takes which object when, at the end exactly the objects are marked that can be reached from
the roots, each was scanned once, and what the workers have counted is what is counted again space
by space when the heap is planned.

Main statements: `PlannedTo.sum_tallies` (counting space by space) and
`WellFormed.marking_computes_reachability` (every interleaving of any number of workers, among them
the one that is carried out).
-/

namespace MarkCompact

variable {zones zones' : List Zone} {objects : List (List Span)} {roots : List ℕ}
  {objs fillers : List Span} {o : Span} {W n k : ℕ}

/-! ## Counting space by space -/

/-- Each object is held by one zone. -/
lemma flatten_held_perm {words : ℕ} (hsep : Separate objs) (hord : ∀ z ∈ zones, z.Ordered W words)
    (hapart : zones.Pairwise Zone.Apart) (hholds : ∀ o ∈ objs, ∃ z ∈ zones, z.Holds W o) :
    (zones.map (Zone.held · W objs)).flatten.Perm objs := by
  refine (List.perm_ext_iff_of_nodup (List.nodup_flatten.2 ⟨fun os hos => ?_, ?_⟩) hsep.nodup).2
    fun o => ?_
  · obtain ⟨z, _, rfl⟩ := List.mem_map.1 hos
    exact hsep.nodup.filter _
  · refine List.pairwise_map.2 (hapart.imp_of_mem fun {z z'} hz hz' hne o ho ho' => ?_)
    obtain ⟨hin, h1, h2⟩ := Zone.mem_held.1 ho
    obtain ⟨_, h1', h2'⟩ := Zone.mem_held.1 ho'
    have hpos := hsep.start_lt_past hin
    have htop := (hord z hz).top_le_last
    have htop' := (hord z' hz').top_le_last
    rcases hne with hle | hle <;> have := Nat.mul_le_mul_right W hle <;> omega
  · rw [List.mem_flatten]
    constructor
    · rintro ⟨os, hos, ho⟩
      obtain ⟨z, _, rfl⟩ := List.mem_map.1 hos
      exact (Zone.mem_held.1 ho).1
    · intro ho
      obtain ⟨z, hz, hzo⟩ := hholds o ho
      exact ⟨_, List.mem_map_of_mem hz, Zone.mem_held.2 ⟨ho, hzo⟩⟩

namespace Heap

/-- What is counted in the spaces adds up to all objects. -/
theorem PlannedTo.sum_tallies {μ : Type} [ObjectModel μ] {h h' : Heap μ} {limiter : Limiter}
    {maximum : Bool} (hp : h.PlannedTo limiter maximum h' h.spaces.length objs fillers zones zones')
    (hm : h.Unplanned objs zones) :
    (⟨(h'.spaces.map Space.liveObjects).sum, (h'.spaces.map Space.liveWords).sum⟩ : MarkTotals)
      = ⟨objs.length, (objs.map Span.words).sum⟩ := by
  have hvalid := hp.valid hm fun _ => 0
  have hperm := flatten_held_perm hm.consistent.marks.separate hp.ordered (hp.apart hm) fun o ho =>
    hvalid.holds o (List.mem_append_right _ ho)
  have hlength : h'.spaces.length = zones'.length := by
    rw [hp.spaces_length, hp.length_eq, hm.spaces_over.length_eq]
  have htallied : ∀ (j : ℕ) (hj : j < h'.spaces.length) (hj' : j < zones'.length),
      h'.spaces[j].liveObjects = (zones'[j].held h.table.geometry.regionWords objs).length
      ∧ h'.spaces[j].liveWords
        = ((zones'[j].held h.table.geometry.regionWords objs).map Span.words).sum :=
          fun j hj hj' => by
    have hlt : j < h.spaces.length := hp.spaces_length ▸ hj
    have ht := hp.tallied j _ _ _ hlt (List.getElem?_eq_getElem hlt) (List.getElem?_eq_getElem hj)
      (List.getElem?_eq_getElem hj')
    exact ⟨ht.liveObjects, ht.liveWords⟩
  have hobjects : h'.spaces.map Space.liveObjects
      = (zones'.map (Zone.held · h.table.geometry.regionWords objs)).map List.length :=
    List.ext_getElem (by simp only [List.length_map, hlength]) fun j h1 h2 => by
      simp only [List.length_map] at h1 h2
      simp only [List.getElem_map, (htallied j h1 h2).1]
  have hwords : h'.spaces.map Space.liveWords
      = (zones'.map (Zone.held · h.table.geometry.regionWords objs)).map fun os =>
        (os.map Span.words).sum :=
    List.ext_getElem (by simp only [List.length_map, hlength]) fun j h1 h2 => by
      simp only [List.length_map] at h1 h2
      simp only [List.getElem_map, (htallied j h1 h2).2]
  rw [hobjects, hwords, ← List.length_flatten, hperm.length_eq, ← (hperm.map Span.words).sum_eq,
    List.map_flatten, List.sum_flatten]
  simp only [List.map_map, Function.comp_def]

end Heap

/-! ## The workers begin -/

namespace Heap

variable {h h₁ : Heap MemoryImage}

/-- The roots that are marked wait in the shared queue. -/
lemma markRoots_shares {μ : Type} [ObjectModel μ] (rest : List ℕ) (pending : Pending)
    (totals : MarkTotals) (h : Heap μ) :
    Leads (fun _ => True) (markRoots rest (pending, totals)) h fun state _ =>
      ∃ shared, state.1 = { pending with shared } := by
  induction rest generalizing h pending totals with
  | nil => exact ⟨pending.shared, rfl⟩
  | cons a rest ih =>
    rw [markRoots, leads_bind]
    refine (leads_true (markObject a) h).mono fun out h' _ => ?_
    cases out with
    | none => exact ih pending totals h'
    | some words => exact ih (pending.addRoot a) (totals.count words) h'

/-- When the roots are marked the workers can begin. -/
lemma Found.start_marks {shared : Fifo ℕ} {totals : MarkTotals}
    (hf : h.Found h₁ zones objects roots objs [] ({ shared }, totals))
    (hroots : ∀ a ∈ roots, h.Points objs a) (hn : 0 < n) :
    (MarkTeam.start n h₁ ({ shared }, totals)).Marks h zones objects roots := by
  refine ⟨MarkTeam.watched_start hn h₁ _, objs, hf.toMarkedTo, ?_, fun _ => nofun, nofun, hroots⟩
  have htotals : totals = ⟨objs.length, (objs.map Span.words).sum⟩ := hf.totals
  have htasks : (MarkTeam.start n h₁ ({ shared }, totals)).queues.tasks = shared.toList := by
    rw [WorkQueues.tasks, MarkTeam.start, WorkQueues.forWorkers, List.flatten_replicate_nil,
      List.append_nil]
  have hwaiting : (shared.toList : Multiset ℕ)
      = (objs.map fun o => h.covered.addr o.start : List ℕ) :=
    Multiset.coe_eq_coe.2 hf.waiting
  have hnone : ∑ w, ((MarkTeam.start n h₁ ({ shared }, totals)).marker w).account = 0 :=
    Finset.sum_eq_zero fun _ _ => rfl
  rw [MarkTeam.account, hnone, add_zero, Workplace.account, htasks, Extent.account, ← hwaiting]
  show ((shared.toList : Multiset ℕ), totals.objects, totals.words) = _
  rw [htotals]

end Heap

/-! ## Every interleaving -/

namespace Heap

/-- The heap `h'` is `h` with exactly the objects marked that can be reached from the roots, each
scanned once, and each counted once, as it is counted in its space when the heap is planned. -/
structure MarksReachable (h h' : Heap MemoryImage) (objects : List (List Span))
    (roots scanned : List ℕ) (totals : MarkTotals) : Prop where
  unchanged : ∃ bitmap, h' = { h with bitmap }
  hasMarked_iff : ∀ o, h'.HasMarked o ↔ h.Reachable objects.flatten roots o
  nodup : scanned.Nodup
  mem_scanned_iff : ∀ a, a ∈ scanned ↔ ∃ o, h.Reachable objects.flatten roots o
    ∧ a = h.covered.addr o.start
  counted : ∃ objs : List Span, objs.Nodup ∧ (∀ o, o ∈ objs ↔ h.Reachable objects.flatten roots o)
    ∧ totals = ⟨objs.length, (objs.map Span.words).sum⟩
  tallied : ∀ limiter maximum, Runs (planSpaces limiter maximum) h' fun _ h'' =>
    totals = ⟨(h''.spaces.map Space.liveObjects).sum, (h''.spaces.map Space.liveWords).sum⟩

end Heap

variable {h : Heap MemoryImage}

/-- When all workers have finished, marking is done. -/
lemma MarkTeam.Marks.marksReachable {t : MarkTeam MemoryImage n}
    (hm : t.Marks h zones objects roots) (hw : h.WellFormed zones objects) (hn : 0 < n)
    (hend : t.Ended) :
    h.MarksReachable t.heap objects roots t.scanned t.totals := by
  obtain ⟨objs, hmarked, hscanned, htotals, hclosed, hroots⟩ := hm.ended hn hend
  have hmem := hmarked.mem_iff hw hroots hclosed
  have hc := hmarked.marked.consistent
  have hsep := hc.marks.separate
  have hnodup : (objs.map fun o => h.covered.addr o.start).Nodup :=
    hsep.nodup.map_on fun o ho o' ho' heq => hsep.eq_of_start ho ho' (Extent.addr_inj.1 heq)
  refine ⟨hmarked.bitmap,
    fun o => (Heap.hasMarked_iff hc.marks (hc.covered.trans hc.bitmap_covered.symm)).trans (hmem o),
    hscanned.nodup_iff.2 hnodup, fun a => ?_, ⟨objs, hsep.nodup, hmem, htotals⟩,
    fun limiter maximum => ?_⟩
  · rw [hscanned.mem_iff, List.mem_map]
    exact exists_congr fun o => and_congr (hmem o) eq_comm
  · refine (hmarked.marked.planSpaces_runs MemoryImage.closesGaps
      (Heap.fillersFit_one _ _ _) limiter maximum).mono fun _ h'' => ?_
    rintro ⟨fillers, zones', hplanned⟩
    rw [htotals, hplanned.sum_tallies hmarked.marked]

/-- The marking that is carried out is a run of one worker. -/
lemma MarkTeam.Marks.solo_ends {h₁ h' : Heap MemoryImage} {shared : Fifo ℕ}
    {totals sum : MarkTotals} {pending : Pending} {fuel : ℕ}
    (hm : (MarkTeam.start 1 h₁ ({ shared }, totals)).Marks h zones objects roots)
    (hw : h.WellFormed zones objects) (hfuel : objects.flatten.length < fuel)
    (heq : Heap.scanPending fuel ({ shared }, totals) h₁ = .ok ((pending, sum), h')) :
    ∃ k t, (MarkTeam.start 1 h₁ ({ shared }, totals)).RunsTo k t ∧ t.Ended ∧ t.heap = h'
      ∧ t.totals = sum := by
  obtain ⟨t, ⟨k, hrun⟩, hheap, hdone⟩ :=
    (Heap.scanPending_reaches fuel { shared } totals {} []).of_eq heq
  have ht := (hm.runsTo hw (by decide) hrun).1
  have hlength := Multiset.card_le_card ht.scanned_le
  rw [Multiset.coe_card, Multiset.coe_card, List.length_map] at hlength
  rcases hdone with ⟨hended, htotals⟩ | hmany
  · exact ⟨k, t, hrun, hended, hheap, htotals⟩
  · rw [List.length_nil] at hmany
    omega

/-- However many workers mark and in whatever order they take steps, none is ever stuck, they do so
much work at most, they can be brought to an end, and at the end exactly what can be reached is
marked.  The marking that is carried out is such a run. -/
theorem Heap.WellFormed.marking_computes_reachability (hw : h.WellFormed zones objects)
    (hm : h.Unplanned [] zones) (hpoints : ∀ a ∈ roots, h.Points objects.flatten a) :
    Heap.Runs (Heap.markRoots roots ({}, {})) h fun state h₁ =>
      (∀ n, 0 < n → n < wordValues → ∀ k (t : MarkTeam MemoryImage n),
        (MarkTeam.start n h₁ state).RunsTo k t →
        (∀ w, (t.marker w).doing ≠ .finished → ∃ work t', t.Step w work t')
        ∧ k ≤ (objects.flatten.map fun o => ObjectModel.scanCost h.image
          (h.covered.addr o.start)).sum
        ∧ (∃ k' t', t.RunsTo k' t' ∧ t'.Ended)
        ∧ (t.Ended → h.MarksReachable t.heap objects roots t.scanned t.totals))
      ∧ ∃ k t, (MarkTeam.start 1 h₁ state).RunsTo k t ∧ t.Ended
        ∧ Heap.markLive roots h = .ok (t.totals, t.heap) := by
  have hsize : h.bitmap.size = h.covered.words := by
    rw [hm.consistent.marks.size_eq, hm.consistent.bitmap_covered, ← hm.consistent.covered]
  have hnone : h.Found h zones objects roots [] [] ({}, {}) :=
    ⟨⟨⟨_, rfl⟩, hm, fun _ ho => absurd ho List.not_mem_nil⟩, .refl _, rfl⟩
  obtain ⟨state, h₁, heq, objs, hf, -, hroots⟩ := Heap.markRoots_runs hw hnone (fun _ => id) hpoints
  refine ⟨state, h₁, heq, ?_⟩
  obtain ⟨pending, totals⟩ := state
  obtain ⟨shared, hshared⟩ := (Heap.markRoots_shares roots {} {} h).of_eq heq
  subst hshared
  refine ⟨fun n hn hlt k t hrun => ?_, ?_⟩
  · have hstart := hf.start_marks hroots hn
    obtain ⟨ht, hcost⟩ := hstart.runsTo hw hlt hrun
    obtain ⟨objs', htraces⟩ := ht.traces
    have hspent := ht.spent_le
    have hzero : (MarkTeam.start n h₁ ({ shared }, totals)).cost = 0 :=
      Finset.sum_eq_zero fun _ _ => rfl
    exact ⟨fun w hw' => htraces.exists_step hw ht.watched hlt hw', by omega, ht.exists_end hw hlt,
      ht.marksReachable hw hn⟩
  · have hcount := hw.separate.length_le fun o => hw.past_le
    obtain ⟨⟨pending, sum⟩, h', hscan, hnone, -⟩ := Heap.scanPending_runs hw hf
      (fun _ ho => absurd ho List.not_mem_nil) (fun _ ho => absurd ho List.not_mem_nil)
      (show objects.flatten.length < h.bitmap.size + 1 + 0 by omega)
    have hlive := Heap.markLive_of_scanned heq hscan hnone
    obtain ⟨k, t, hrun, hended, rfl, rfl⟩ :=
      (hf.start_marks hroots one_pos).solo_ends hw (by omega) hscan
    exact ⟨k, t, hrun, hended, hlive⟩

lemma Heap.linked_unplanned : linked.Unplanned [] [⟨0, 0, 4, 14⟩] :=
  { linked_orderly with
    holds := fun _ ho => absurd ho List.not_mem_nil
    blank := fun _ _ r _ _ => by rw [show linked.table.regions.get r = {} from Table.get_fresh ..] }

/-- Two workers mark three objects of which the first and the last refer to each other, from the
first one on. -/
theorem Heap.WellFormed.marking_computes_reachability_linked :
    linked.WellFormed [⟨0, 0, 4, 14⟩] linkedObjects
    ∧ linked.Unplanned [] [⟨0, 0, 4, 14⟩] ∧ (∀ a ∈ [64], linked.Points linkedObjects.flatten a)
    ∧ Heap.Runs (Heap.markRoots [64] ({}, {})) linked fun state h₁ =>
      ∀ k (t : MarkTeam MemoryImage 2),
      (MarkTeam.start 2 h₁ state).RunsTo k t →
        (∃ k' t', t.RunsTo k' t' ∧ t'.Ended)
        ∧ (t.Ended → linked.MarksReachable t.heap linkedObjects [64] t.scanned t.totals) :=
  ⟨linked_wellFormed, linked_unplanned, linked_root,
    (linked_wellFormed.marking_computes_reachability linked_unplanned linked_root).mono
      fun _ _ hall k t hrun =>
      (hall.1 2 (by decide) (by decide) k t hrun).2.2⟩

end MarkCompact
