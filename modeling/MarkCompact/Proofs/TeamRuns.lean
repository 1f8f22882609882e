import MarkCompact.Proofs.PlannedHeaps
import MarkCompact.Proofs.Tracing

/-!
# Marking comes to an end

A step in which a worker works uses up part of what the object that it scans is worth, so there are
only so many of them. When no worker can work any more they offer to terminate, one after the other.

Main statements: `Marks.runsTo` (a bound on the work of any run), `Marks.exists_end` (every run can
be brought to an end) and `Marks.ended` (what there is then).
-/

namespace MarkCompact

open MarkTeam

variable {zones : List Zone} {objects : List (List Span)} {roots : List ℕ} {objs : List Span}
  {o : Span} {n k : ℕ}

/-! ## Work -/

section

variable {μ σ : Type}

/-- The steps that are left of scanning the object that the worker is at, at most. -/
def Activity.cost : Activity σ → ℕ
  | visiting slots => 4 * slots.length + 1
  | holding _ slots => 4 * slots.length + 4
  | sharing _ slots => 4 * slots.length + 2
  | _ => 0

/-- The steps that are left to the worker before it takes another object, at most: it may still
share what is in its segment. -/
def Marker.cost (m : Marker σ) : ℕ :=
  m.segment.length + m.doing.cost

/-- The steps that it takes to scan the object at `addr`, at most. -/
def ObjectModel.scanCost [ObjectModel μ] (image : μ) (addr : ℕ) : ℕ :=
  match ObjectModel.allSlots image addr with
  | .ok slots => 4 * slots.length + 2
  | .error _ => 0

namespace MarkTeam

variable [ObjectModel μ] {t t' : MarkTeam μ n} {w : Fin n}

/-- The steps that are left of all objects that workers are at. -/
def cost (t : MarkTeam μ n) : ℕ :=
  ∑ w, (t.marker w).cost

/-- What scanning the objects takes that have been begun, at most. -/
def spent (t : MarkTeam μ n) (image : μ) : ℕ :=
  (t.scanned.map (ObjectModel.scanCost image)).sum

end MarkTeam

variable [ObjectModel μ]

/-- A step of work is paid for. -/
lemma Marker.Works.cost_lt {i : ℕ} {p p' : Workplace μ} {m m' : Marker (ObjectModel.Slot μ)}
    (h : m.Works i p p' m') :
    m'.cost + (p.scanned.map (ObjectModel.scanCost p.heap.image)).sum + 1
      ≤ m.cost + (p'.scanned.map (ObjectModel.scanCost p.heap.image)).sum := by
  cases h with
  | take doing segment eq | obtain doing segment _ eq =>
    simp only [cost, doing, segment, Activity.cost, List.length_cons, List.length_nil,
      List.map_cons, List.sum_cons, ObjectModel.scanCost, eq]
    omega
  | skip doing | mark doing =>
    simp only [cost, doing, Activity.cost, List.length_cons]
    omega
  | put doing =>
    rw [Marker.put]
    split
    · split <;> simp only [cost, doing, Activity.cost, List.length_cons] <;> omega
    · simp only [cost, doing, Activity.cost, List.length_cons]
      omega
  | push doing | visited doing =>
    simp only [cost, doing, Activity.cost, List.length_nil]
    omega
  | share doing segment | shared doing =>
    simp only [cost, *, Activity.cost, List.length_cons]
    omega

omit [ObjectModel μ] in
/-- A worker that rests makes no work for itself. -/
lemma Marker.Rests.cost_eq {i : ℕ} {p p' : Workplace μ} {m m' : Marker σ} (h : m.Rests i p p' m') :
    m'.cost = m.cost ∧ p'.scanned = p.scanned := by
  cases h <;> exact ⟨by simp only [cost, finish, *, Activity.cost], rfl⟩

/-- A step is paid for if it does some work. -/
lemma MarkTeam.Step.cost_le {t t' : MarkTeam μ n} {w : Fin n} {work : Bool} (h : t.Step w work t') :
    t'.cost + t.spent t.heap.image + work.toNat ≤ t.cost + t'.spent t.heap.image := by
  cases h with
  | @work _ p m works =>
    have hsum : (t.act w p m).cost + (t.marker w).cost = t.cost + m.cost := sum_act_add Marker.cost
    have hlt := works.cost_lt
    simp only [spent, act_toWorkplace, Bool.toNat_true]
    omega
  | @rest _ p m rests =>
    have hsum : (t.act w p m).cost + (t.marker w).cost = t.cost + m.cost := sum_act_add Marker.cost
    obtain ⟨hcost, hscanned⟩ := rests.cost_eq
    simp only [spent, act_toWorkplace, hscanned, Bool.toNat_false]
    omega

end

/-! ## When nobody can work -/

section

variable {μ σ : Type}

lemma MarkTeam.RunsTo.trans [ObjectModel μ] {t t' t'' : MarkTeam μ n} {k' : ℕ}
    (hrun : t.RunsTo k t') (hrun' : t'.RunsTo k' t'') :
    t.RunsTo (k + k') t'' := by
  induction hrun' with
  | refl => exact hrun
  | step _ step ih => exact (Nat.add_assoc ..) ▸ (ih hrun).step step

/-- In how many places the worker has still to look. -/
def Seen.left (seen : Seen) : ℕ :=
  (!seen.own).toNat + (!seen.shared).toNat + (!seen.peers).toNat

lemma Seen.exists_left {seen : Seen} (h : seen ≠ ⟨true, true, true⟩) :
    ∃ s, (seen.note s).left < seen.left := by
  obtain ⟨own, shared, peers⟩ := seen
  cases own with
  | false => exact ⟨.own, by simp [note, left]⟩
  | true =>
    cases shared with
    | false => exact ⟨.shared, by simp [note, left]⟩
    | true =>
      cases peers with
      | false => exact ⟨.peers, by simp [note, left]⟩
      | true => exact absurd rfl h

/-- How far a worker is from having finished, if it does not work. -/
def Activity.rank : Activity σ → ℕ
  | seeking seen => 2 + seen.left
  | offered => 1
  | _ => 0

/-- The worker has nothing to do. -/
structure Marker.Idle (m : Marker σ) : Prop where
  segment : m.segment = []
  doing : (∃ seen, m.doing = .seeking seen) ∨ m.doing = .finished ∨ m.doing = .offered

/-- A worker is idle when it rests, and afterwards. -/
lemma Marker.Rests.idle {i : ℕ} {p p' : Workplace μ} {m m' : Marker σ} (h : m.Rests i p p' m')
    (hoffered : m.doing = .offered → m.segment = []) : m.Idle ∧ m'.Idle ∧ p'.queues = p.queues := by
  cases h with
  | miss doing segment gets =>
    exact ⟨⟨segment, Or.inl ⟨_, doing⟩⟩, ⟨segment, Or.inl ⟨_, rfl⟩⟩, gets.of_none.1⟩
  | leave doing segment | last doing segment =>
    exact ⟨⟨segment, Or.inl ⟨_, doing⟩⟩, ⟨segment, Or.inr (Or.inl rfl)⟩, rfl⟩
  | offer doing segment => exact ⟨⟨segment, Or.inl ⟨_, doing⟩⟩, ⟨segment, Or.inr (Or.inr rfl)⟩, rfl⟩
  | follow doing =>
    have segment := hoffered doing
    exact ⟨⟨segment, Or.inr (Or.inr doing)⟩, ⟨segment, Or.inr (Or.inl rfl)⟩, rfl⟩
  | again doing =>
    have segment := hoffered doing
    exact ⟨⟨segment, Or.inr (Or.inr doing)⟩, ⟨segment, Or.inl ⟨_, rfl⟩⟩, rfl⟩

/-- No worker has anything to do, and nothing is in the queues. -/
structure MarkTeam.Starving [ObjectModel μ] (t : MarkTeam μ n) : Prop where
  tasks : t.queues.tasks = []
  idle : ∀ w, (t.marker w).Idle

namespace MarkTeam.Starving

variable [ObjectModel μ] {t : MarkTeam μ n} {w : Fin n} {p : Workplace μ}
  {m : Marker (ObjectModel.Slot μ)} (hs : t.Starving)
include hs

lemma rests (h : (t.marker w).Rests w t.toWorkplace p m) : (t.act w p m).Starving := by
  obtain ⟨-, hnew, hqueues⟩ := h.idle fun _ => (hs.idle w).segment
  refine ⟨(congrArg WorkQueues.tasks hqueues).trans hs.tasks, fun v => ?_⟩
  rcases eq_or_ne v w with rfl | hne
  · rwa [act_marker_self]
  · rw [act_marker_of_ne hne]
    exact hs.idle v

/-- A worker finds nothing, wherever it looks. -/
lemma gets_none (hb : t.Watched) (w : Fin n) (s : Source) : ∃ q, t.queues.Gets w s none q := by
  obtain ⟨x, q, hgets⟩ := t.queues.exists_gets (w.isLt.trans_eq hb.stacks_length.symm) s
  cases x with
  | none => exact ⟨q, hgets⟩
  | some a =>
    have hmem : a ∈ t.queues.tasks := hgets.tasks_perm.subset List.mem_cons_self
    rw [hs.tasks] at hmem
    exact absurd hmem List.not_mem_nil

/-- As long as not all have finished, some worker can come closer to it. -/
lemma exists_rests (hb : t.Watched) (hnot : ¬t.Ended) :
    ∃ w p m, (t.marker w).Rests w t.toWorkplace p m ∧ m.doing.rank < (t.marker w).doing.rank := by
  by_cases hseeks : ∃ w seen, (t.marker w).doing = .seeking seen
  · obtain ⟨w, seen, hw⟩ := hseeks
    have hsegment := (hs.idle w).segment
    by_cases hseen : seen = ⟨true, true, true⟩
    · subst hseen
      by_cases halone : t.terminator.workers = 1
      · exact ⟨w, _, _, .leave hw hsegment halone, by rw [hw]; exact Nat.zero_lt_two⟩
      · rcases hoffer : t.terminator.offer with ⟨last, t'⟩
        cases last with
        | false =>
          exact ⟨w, _, _, .offer hw hsegment halone hoffer, by rw [hw]; exact Nat.lt_succ_self 1⟩
        | true =>
          exact ⟨w, _, _, .last hw hsegment halone hoffer, by rw [hw]; exact Nat.zero_lt_two⟩
    · obtain ⟨s, hless⟩ := Seen.exists_left hseen
      obtain ⟨q, hgets⟩ := hs.gets_none hb w s
      exact ⟨w, _, _, .miss hw hsegment hgets, by rw [hw]; exact Nat.add_lt_add_left hless 2⟩
  -- All of them have offered.
  have hgone : ∀ v, (t.marker v).doing = .finished ∨ (t.marker v).doing = .offered := fun v =>
    (hs.idle v).doing.resolve_left fun ⟨seen, hv⟩ => hseeks ⟨v, seen, hv⟩
  obtain ⟨w, hw⟩ := not_forall.1 hnot
  have hoffered := (hgone w).resolve_left hw
  exact ⟨w, _, _, .follow hoffered (hb.reconsider_of_gone hgone hoffered),
    by rw [hoffered]; exact Nat.zero_lt_one⟩

/-- One after the other the workers finish. -/
theorem exists_end (hb : t.Watched) (hlt : n < wordValues) : ∃ t', t.RunsTo 0 t' ∧ t'.Ended := by
  induction hk : ∑ w, (t.marker w).doing.rank using Nat.strong_induction_on generalizing t with
  | _ k ih =>
    by_cases hended : t.Ended
    · exact ⟨t, .refl t, hended⟩
    · obtain ⟨w, p, m, hrests, hrank⟩ := hs.exists_rests hb hended
      have hsum : ∑ v, ((t.act w p m).marker v).doing.rank + (t.marker w).doing.rank
          = ∑ v, (t.marker v).doing.rank + m.doing.rank :=
        sum_act_add fun m => m.doing.rank
      obtain ⟨t', hrun, hend⟩ := ih _ (by omega) (hs.rests hrests) (hb.step hlt (.rest hrests)) rfl
      exact ⟨t', ((RunsTo.refl t).step (.rest hrests)).trans hrun, hend⟩

end MarkTeam.Starving

end

/-! ## Runs -/

/-- The workers mark the heap `h`. -/
structure MarkTeam.Marks (t : MarkTeam MemoryImage n) (h : Heap MemoryImage) (zones : List Zone)
    (objects : List (List Span)) (roots : List ℕ) : Prop where
  watched : t.Watched
  traces : ∃ objs, t.Traces h zones objects roots objs

variable {h : Heap MemoryImage} {t t' t'' : MarkTeam MemoryImage n} {w : Fin n}

namespace MarkTeam.Marks

variable (hm : t.Marks h zones objects roots)
include hm

lemma image_eq : t.heap.image = h.image := by
  obtain ⟨_, ht⟩ := hm.traces
  exact ht.marked.image_eq

/-- No object is scanned more than once. -/
lemma scanned_le :
    (t.scanned : Multiset ℕ) ≤ (objects.flatten.map fun o => h.covered.addr o.start : List ℕ) := by
  obtain ⟨objs, ht⟩ := hm.traces
  have hscanned : (t.scanned : Multiset ℕ) ≤
      (objs.map fun o => h.covered.addr o.start : List ℕ) := by
    have haccount : t.account.1 = _ := congrArg Prod.fst ht.account
    rw [MarkTeam.account, Prod.fst_add] at haccount
    refine le_trans ?_ haccount.le
    refine (Multiset.coe_le.2 ?_).trans (Multiset.le_add_right _ _)
    exact (List.sublist_append_left ..).subperm
  have hall : (objs : Multiset Span) ≤ (objects.flatten : List Span) :=
    Multiset.coe_le.2 (List.subperm_of_subset ht.marked.marked.consistent.marks.separate.nodup
      fun o ho =>
      (ht.marked.reachable o ho).mem)
  exact hscanned.trans (Multiset.map_le_map hall)

/-- What has been spent is no more than scanning all objects takes. -/
lemma spent_le :
    t.spent h.image ≤ (objects.flatten.map fun o => ObjectModel.scanCost h.image
      (h.covered.addr o.start)).sum := by
  obtain ⟨rest, hrest⟩ := Multiset.le_iff_exists_add.1 hm.scanned_le
  have hsum := congrArg (fun s => (s.map (ObjectModel.scanCost h.image)).sum) hrest
  simp only [Multiset.map_coe, Multiset.sum_coe, Multiset.map_add, Multiset.sum_add,
    List.map_map] at hsum
  rw [spent]
  exact le_trans (Nat.le_add_right _ _) hsum.ge

variable (hw : h.WellFormed zones objects) (hlt : n < wordValues)
include hw hlt

lemma step {work : Bool} (hstep : t.Step w work t') : t'.Marks h zones objects roots := by
  obtain ⟨objs, ht⟩ := hm.traces
  exact ⟨hm.watched.step hlt hstep, ht.step hw hstep⟩

/-- The work of a run is paid for. -/
theorem runsTo (hrun : t.RunsTo k t') :
    t'.Marks h zones objects roots ∧ t'.cost + t.spent h.image + k ≤ t.cost + t'.spent h.image := by
  induction hrun with
  | refl => exact ⟨hm, le_rfl⟩
  | step _ step ih =>
    obtain ⟨hm', hle⟩ := ih hm
    have hcost := step.cost_le
    rw [hm'.image_eq] at hcost
    exact ⟨hm'.step hw hlt step, by omega⟩

/-- If nobody can do any work, there is nothing to do. -/
lemma starving (hnone : ∀ w t', ¬t.Step w true t') : t.Starving := by
  obtain ⟨objs, ht⟩ := hm.traces
  have hidle : ∀ w, (t.marker w).Idle := fun w => by
    by_cases hfinished : (t.marker w).doing = .finished
    · exact ⟨(hm.watched.of_finished hfinished).1, Or.inr (Or.inl hfinished)⟩
    · obtain ⟨work, t', hstep⟩ := ht.exists_step hw hm.watched hlt hfinished
      cases hstep with
      | work works => exact absurd (.work works) (hnone w _)
      | rest rests => exact (rests.idle hm.watched.of_offered).1
  refine ⟨hm.watched.tasks_eq_nil (fun v => ⟨(hidle v).segment, (hidle v).doing⟩)
    fun v seen hv s a q hgets => ?_, hidle⟩
  obtain ⟨slots, hslots, _⟩ :=
    ht.follows_slots hw (Or.inl (hgets.tasks_perm.subset List.mem_cons_self))
  exact hnone v _ (.work (.obtain hv (hidle v).segment hgets hslots))

/-- However far the workers have gone, they can be brought to an end. -/
theorem exists_end : ∃ k' t', t.RunsTo k' t' ∧ t'.Ended := by
  -- What is left to spend becomes less with every step of work.
  have hspent := hm.spent_le
  induction hj : t.cost + (objects.flatten.map
    fun o => ObjectModel.scanCost h.image (h.covered.addr o.start)).sum
      - t.spent h.image using Nat.strong_induction_on generalizing t with
  | _ j ih =>
    by_cases hwork : ∃ w t', t.Step w true t'
    · obtain ⟨w, t', hstep⟩ := hwork
      have hm' := hm.step hw hlt hstep
      have hcost := hstep.cost_le
      have hspent' := hm'.spent_le
      rw [hm.image_eq, Bool.toNat_true] at hcost
      obtain ⟨k', t'', hrun, hend⟩ := ih _ (by omega) hm' hspent' rfl
      exact ⟨_, t'', ((RunsTo.refl t).step hstep).trans hrun, hend⟩
    · have hnone : ∀ w t', ¬t.Step w true t' := fun w t' hstep => hwork ⟨w, t', hstep⟩
      obtain ⟨t', hrun, hend⟩ := (hm.starving hw hlt hnone).exists_end hm.watched hlt
      exact ⟨0, t', hrun, hend⟩

omit hw hlt in
/-- When all have finished, each marked object was scanned once, and what it refers to is marked;
each was counted once. -/
theorem ended (hn : 0 < n) (hend : t.Ended) : ∃ objs, h.MarkedTo t.heap zones objects roots objs
    ∧ t.scanned.Perm (objs.map fun o => h.covered.addr o.start)
    ∧ t.totals = ⟨objs.length, (objs.map Span.words).sum⟩
    ∧ (∀ o ∈ objs, ∀ a, h.image.Loads (h.covered.addr o.start) a → h.Points objs a) ∧ ∀ a ∈ roots,
      h.Points objs a := by
  obtain ⟨objs, ht⟩ := hm.traces
  obtain ⟨htasks, hnothing⟩ := hm.watched.nothing_aside (hend ⟨0, hn⟩)
  have hzero : ∀ w, (t.marker w).account = 0 := fun w => by
    rw [Marker.account, Marker.aside_eq, (hnothing w).1,
      (hm.watched.of_finished (hend w)).2, hend w]
    rfl
  have haccount := ht.account
  rw [MarkTeam.account, Finset.sum_eq_zero fun w _ => hzero w, add_zero, Workplace.account, htasks,
    List.append_nil, Extent.account, Prod.mk.injEq, Prod.mk.injEq, Multiset.coe_eq_coe] at haccount
  obtain ⟨hscanned, hobjects, hwords⟩ := haccount
  have htotals : t.totals = ⟨objs.length, (objs.map Span.words).sum⟩ := by
    rw [← hobjects, ← hwords]
  refine ⟨objs, ht.marked, hscanned, htotals, fun o ho a hloads => ?_, ht.roots⟩
  obtain ⟨slots, hrefs, slot, hslot, hload⟩ := hloads
  have hin := hscanned.mem_iff.2 (List.mem_map_of_mem ho)
  rcases ht.traced _ hin slots hrefs slot hslot with htraced | ⟨w, hleft⟩
  · exact htraced a hload
  · rw [hend w] at hleft
    exact absurd hleft List.not_mem_nil

end MarkTeam.Marks

end MarkCompact
