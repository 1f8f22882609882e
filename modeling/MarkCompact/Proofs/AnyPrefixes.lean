import MarkCompact.Proofs.PlannedHeaps

/-!
# Dense prefixes of all kinds

A cycle plans every space around the prefix that is chosen for it.  The plan is as good around any
other prefix that ends at the start of a region, so the spaces may be given a `PrefixRule` each.

Main statements: `Unplanned.planSpacesBy_leads` (only fillers that do not fit stop the planning) and
`Unplanned.planSpacesBy_unbegun` (what comes out is a plan that has not been carried out).
-/

namespace MarkCompact

/-- Around which dense prefix a space is planned. -/
inductive PrefixRule where
  /-- Around the one that a cycle chooses. -/
  | chosen (limiter : Limiter) (maximum : Bool)
  /-- Around the one that ends at `boundary`. -/
  | endingAt (boundary : ℕ)

namespace PrefixRule

/-- The rule can be followed in the space: the boundary is the start of a region between the bottom
and the top. -/
def FitsIn (t : RegionTable) (s : Space) : PrefixRule → Prop
  | chosen _ _ => True
  | endingAt boundary =>
    (∃ r, boundary = t.regionStart r) ∧ s.bottom ≤ boundary ∧ (s.bottom < boundary →
      boundary < s.top)

end PrefixRule

namespace Heap

variable {μ : Type} [ObjectModel μ] {h h' : Heap μ} {objs fillers : List Span}
  {zones zones' : List Zone} {s : Space} {z : Zone} {n minimum : ℕ} {rule : ℕ → PrefixRule}

/-- Plans space `i`, which is planned into itself from its bottom, around the prefix of the rule. -/
def planAroundRule (i : ℕ) : PrefixRule → HeapAction μ Unit
  | .chosen limiter maximum => planAroundPrefix i limiter maximum
  | .endingAt boundary => planAround i boundary

/-- Plans every space around a prefix of its own. -/
def planSpacesBy (rule : ℕ → PrefixRule) : HeapAction μ Unit := do
  let h ← get
  (List.range h.spaces.length).forM fun i => planSpaceBy (planAroundRule i (rule i)) i

/-- A cycle follows one rule everywhere. -/
lemma planSpacesBy_chosen (limiter : Limiter) (maximum : Bool) :
    planSpacesBy (μ := μ) (fun _ => .chosen limiter maximum) = planSpaces limiter maximum :=
  rfl

/-- The next space is planned around the prefix of any rule that fits in it. -/
lemma PlannedThrough.plansAround_rule {rule : PrefixRule}
    (hp : h.PlannedThrough h' n objs fillers zones zones') (hm : h.Unplanned objs zones)
    (hcloses : ClosesGaps μ minimum) (hz : zones[n]? = some z) (hs : h.spaces[n]? = some s)
    (hrule : rule.FitsIn h.table s) :
    ∃ settled, PlansAround (fun _ => z.Misfit h.table.geometry.regionWords minimum objs)
      (planAroundRule n rule) h' n s
      (fillers ++ objs) z settled := by
  cases rule with
  | chosen limiter maximum => exact ⟨_, hp.plansAround_prefix hm hcloses hz limiter maximum⟩
  | endingAt boundary =>
    obtain ⟨⟨k, rfl⟩, hbottom, htop⟩ := hrule
    obtain ⟨z₀, hz₀, hover⟩ := hm.liesOver.exists_zone hs
    cases hz.symm.trans hz₀
    rw [hm.consistent.covered] at hover
    have hW := h.table.geometry.regionWords_pos
    rw [RegionTable.Laid.regionStart_eq] at *
    rw [hover.bottom, Extent.addr_le_addr, Nat.mul_le_mul_right_iff hW] at hbottom
    rw [hover.bottom, hover.top, Extent.addr_lt_addr, Extent.addr_lt_addr,
      Nat.mul_lt_mul_right hW] at htop
    exact ⟨_, hp.plansAround_boundary hm hcloses hz hbottom htop⟩

/-- Every space is planned around the prefix of its rule, unless a gap has no room for its
filler. -/
theorem Unplanned.planSpacesBy_leads (hm : h.Unplanned objs zones) (hcloses : ClosesGaps μ minimum)
    (hrule : ∀ i s, h.spaces[i]? = some s → (rule i).FitsIn h.table s) :
    Leads (fun _ => ∃ z ∈ zones, z.Misfit h.table.geometry.regionWords minimum objs)
      (planSpacesBy rule) h fun _ h' =>
      ∃ fillers zones', h.PlannedThrough h' h.spaces.length objs fillers zones zones' := by
  rw [planSpacesBy, leads_bind, leads_get]
  refine leads_forM_range (fun n h' => ∃ fillers zones',
    h.PlannedThrough h' n objs fillers zones zones')
    ⟨[], zones, hm.plannedThrough⟩ fun n h' hn hplanned => ?_
  obtain ⟨fillers, zones', hp⟩ := hplanned
  have hs : h.spaces[n]? = some h.spaces[n] := List.getElem?_eq_getElem hn
  obtain ⟨z, hz, -⟩ := hm.liesOver.exists_zone hs
  obtain ⟨settled, haround⟩ := hp.plansAround_rule hm hcloses hz hs (hrule n _ hs)
  refine ((hp.next_leads hm hcloses hz hs haround).widen fun _ hmisfit => ⟨z,
    List.mem_of_getElem? hz, hmisfit⟩).mono
    fun _ h'' => ?_
  rintro ⟨k, fillers', _, hp'⟩
  exact ⟨fillers', _, hp'⟩

/-- What has been planned around prefixes of any rules is a plan for the live objects, and has not
been carried out. -/
theorem Unplanned.planSpacesBy_unbegun (hm : h.Unplanned objs zones)
    (hcloses : ClosesGaps μ minimum)
    (hrule : ∀ i s, h.spaces[i]? = some s → (rule i).FitsIn h.table s) :
    Leads (fun _ => ∃ z ∈ zones, z.Misfit h.table.geometry.regionWords minimum objs)
      (planSpacesBy rule) h fun _ h' =>
      ∃ p : Plan, p.covered = h.covered ∧ objs ⊆ p.objs ∧ p.Valid ∧ p.Unbegun h' := by
  refine (hm.planSpacesBy_leads hcloses hrule).mono fun _ h' => ?_
  rintro ⟨fillers, zones', hp⟩
  exact ⟨_, hm.consistent.covered.symm, List.subset_append_right _ _, hp.valid hm fun _ => 0,
    hp.unbegun hm _⟩

/-- The boundary between the second region and the third is a prefix end of the space of four
regions. -/
lemma fourRegions_fitsIn (i : ℕ) (s : Space) (hs : fourRegions.spaces[i]? = some s) :
    (PrefixRule.endingAt 128).FitsIn fourRegions.table s := by
  obtain rfl : s = { Space.ofConfig (.old "old" 64 192) with top := 176 } :=
    List.mem_singleton.1 (List.mem_of_getElem? hs)
  exact ⟨⟨2, by decide⟩, by decide, by decide⟩

end Heap

end MarkCompact
