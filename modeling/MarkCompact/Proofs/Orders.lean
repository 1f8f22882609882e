import MarkCompact.Proofs.Creating
import MarkCompact.Proofs.Jobs

/-!
# Spaces are planned in any order

The spaces of a heap are planned by one job each.  A job depends on its own zone only and changes
nothing outside of it, so whatever jobs have run, a zone is as it was at first until its own job has
run, and from then on as if no other job had: `PlannedAlone limiter maximum h zones done g` says so
of the heap `g`.  Every job keeps it, and it leaves nothing open, so the result does not depend on
the order.

Main statements: `PlannedAlone.run` (jobs in any order) and `planSpaces_any_order`.
-/

namespace MarkCompact

variable {objs : List Span} {zones : List Zone} {z z' : Zone} {i j r : ℕ}

/-! ## Smaller parts -/

section

variable {P Q : ℕ → Prop}

lemma Bitset.SameOn.mono {s s' : Bitset} (h : s.SameOn P s') (hQ : ∀ i, Q i → P i) :
    s.SameOn Q s' :=
  ⟨h.valid, h.valid', h.size_eq, fun i hi => h.mem_eq i (hQ i hi)⟩

lemma MarkBitmap.SameOn.mono {m m' : MarkBitmap} (h : m.SameOn P m') (hQ : ∀ i, Q i → P i) :
    m.SameOn Q m' :=
  ⟨h.covered, h.begins.mono hQ, h.ends.mono hQ⟩

lemma RegionTable.SameOn.mono {t t' : RegionTable} (h : t.SameOn P t') (hQ : ∀ i, Q i → P i) :
    t.SameOn Q t' :=
  ⟨h.shape, fun r hr => h.regions r (hQ r hr), fun k hk => h.blocks k (hQ _ hk)⟩

lemma RegionTable.SameOn.symm {t t' : RegionTable} (h : t.SameOn P t') : t'.SameOn P t where
  shape := h.shape.symm
  regions r hr := (h.regions r hr).symm
  blocks k hk := (h.blocks k (h.shape.geometry ▸ hk)).symm

end

/-- Zones that are apart share no region. -/
lemma Zone.Apart.not_owns (h : z.Apart z') (hr : z'.Owns r) : ¬z.Owns r := fun hr' => by
  obtain ⟨h1, h2⟩ := hr
  obtain ⟨h1', h2'⟩ := hr'
  rcases h with h | h
  · omega
  · omega

namespace Space.Over

variable {s : Space} {e : Extent} {W x : ℕ}

/-- The space contains the words of its zone. -/
lemma contains_addr (h : s.Over e W z) :
    s.contains (e.addr x) = true ↔ z.first * W ≤ x ∧ x < z.last * W := by
  rw [Space.contains, h.bottom, h.limit, Bool.and_eq_true, decide_eq_true_iff, decide_eq_true_iff,
    Extent.addr_le_addr, Extent.addr_lt_addr]

lemma owns_of_contains (h : s.Over e W z) (hW : 0 < W) (hx : s.contains (e.addr x) = true) :
    z.Owns (x / W) := by
  obtain ⟨h1, h2⟩ := h.contains_addr.1 hx
  exact Zone.owns_of_words hW h1 h2 le_rfl le_rfl

end Space.Over

namespace Heap

variable {μ : Type} {h g g' k : Heap μ} {s : Space} {done done' : List ℕ}

/-- A change elsewhere leaves the heaps the same in the zone. -/
lemma Twins.of_sameElsewhere (ht : Twins j z' g k) (hrest : g.SameElsewhere i z g') (hne : j ≠ i)
    (hapart : z.Apart z') :
    Twins j z' g' k := by
  have hcovered := hrest.table.shape.covered
  have hgeometry := hrest.table.shape.geometry
  have hout : ∀ r, z'.Owns r → ¬z.Owns r := fun r hr => hapart.not_owns hr
  have hspace := hrest.spaces j hne
  refine ⟨?_, ⟨(hrest.table.mono hout).symm.trans ht.table.toSameOn, fun r hr => ?_⟩, ?_,
    hrest.table.shape.laid ht.laid, ?_, ?_, ?_⟩
  · rw [hgeometry]
    exact (hrest.bitmap.mono fun w hw => hout _ hw).symm.trans ht.bitmap
  · rw [hrest.table.regions r (hout r hr)]
    exact ht.table.fits r hr
  · rw [hspace, ht.space]
  · rw [hrest.bitmap.covered, ht.bitmap_covered, hcovered]
  · rw [hcovered, hgeometry]
    exact ht.ordered
  · rw [hcovered, hgeometry, hspace]
    exact ht.liesOver

lemma SameOn.of_sameElsewhere {P : ℕ → Prop} (hsame : g.SameOn P (fun _ => False) k)
    (hrest : g.SameElsewhere i z g') (hP : ∀ r, P r → ¬z.Owns r) :
    g'.SameOn P (fun _ => False) k where
  bitmap := by
    rw [hrest.table.shape.geometry]
    exact (hrest.bitmap.mono fun w hw => hP _ hw).symm.trans hsame.bitmap
  table := (hrest.table.mono hP).symm.trans hsame.table
  length_eq := hsame.length_eq.trans hrest.length_eq.symm
  spaces _ hj := hj.elim

/-- The tables of the heaps hold the same, and their spaces are the same. -/
structure SamePlan (g g' : Heap μ) : Prop where
  bitmap_covered : g'.bitmap.covered = g.bitmap.covered
  bitmap_size : g'.bitmap.size = g.bitmap.size
  shape : g.table.SameShape g'.table
  begins : ∀ w, g'.bitmap.begins.mem w = g.bitmap.begins.mem w
  ends : ∀ w, g'.bitmap.ends.mem w = g.bitmap.ends.mem w
  regions : ∀ r, g'.table.regions.get r = g.table.regions.get r
  blocks : ∀ k, g'.table.blocks.get k = g.table.blocks.get k
  spaces : g'.spaces = g.spaces

/-- The tables hold the same for the addresses of the space. -/
structure SameIn (s : Space) (g g' : Heap μ) : Prop where
  regions : ∀ r, s.contains (g.table.regionStart r) = true →
    g'.table.regions.get r = g.table.regions.get r
  blocks : ∀ b, s.contains (g.table.covered.addr (b * g.table.geometry.blockWords)) = true →
    g'.table.blocks.get b = g.table.blocks.get b
  begins : ∀ w, s.contains (g.bitmap.addrOf w) = true →
    g'.bitmap.begins.mem w = g.bitmap.begins.mem w
  ends : ∀ w, s.contains (g.bitmap.addrOf w) = true → g'.bitmap.ends.mem w = g.bitmap.ends.mem w

/-- The space of a zone contains the regions, blocks and words that belong to it, so what happens
elsewhere does not change them. -/
lemma SameElsewhere.sameIn (hrest : g.SameElsewhere i z g')
    (hs : s.Over g.table.covered g.table.geometry.regionWords z')
    (hcovered : g.bitmap.covered = g.table.covered) (hapart : z.Apart z') : SameIn s g g' := by
  have hW := g.table.geometry.regionWords_pos
  have hout : ∀ x, s.contains (g.table.covered.addr x) = true →
      ¬z.Owns (x / g.table.geometry.regionWords) := fun x hx =>
    hapart.not_owns (hs.owns_of_contains hW hx)
  refine ⟨fun r hr => hrest.table.regions r ?_, fun b hb => hrest.table.blocks b ?_,
    fun w hw => hrest.bitmap.begins.mem_eq w ?_, fun w hw => hrest.bitmap.ends.mem_eq w ?_⟩
  · rw [RegionTable.Laid.regionStart_eq] at hr
    have hregion := hout _ hr
    rwa [Nat.mul_div_cancel _ hW] at hregion
  · have hblock := hout _ hb
    rwa [← g.table.geometry.div_blockWords_div,
      Nat.mul_div_cancel _ g.table.geometry.blockWords_pos] at hblock
  · exact hout w (hcovered ▸ hw)
  · exact hout w (hcovered ▸ hw)

/-! ## Jobs in any order -/

variable [ObjectModel μ] {limiter : Limiter} {maximum : Bool} {minimum : ℕ}

/-- The heap `g` is `h` with some of the spaces planned: they are as if each had been planned alone,
and the others are as they were. -/
structure PlannedAlone (limiter : Limiter) (maximum : Bool) (h : Heap μ) (zones : List Zone)
    (done : List ℕ) (g : Heap μ) : Prop where
  todo : ∀ i z, zones[i]? = some z → i ∉ done → Twins i z g h
  alone : ∀ i z, zones[i]? = some z → i ∈ done → ∃ k, planSpace limiter maximum i h = .ok ((), k)
    ∧ Twins i z g k
  outside : g.SameOn (fun r => ∀ z ∈ zones, ¬z.Owns r) (fun _ => False) h

omit [ObjectModel μ] in
/-- Objects with words in a zone lie in it. -/
lemma Unplanned.bounds (hm : h.Unplanned objs zones) (hz : z ∈ zones) :
    z.Bounds h.table.geometry.regionWords objs :=
  Plan.Valid.bounds (p := ⟨h.table.covered, h.table.geometry, objs, zones, fun _ => 0⟩)
    ⟨hm.consistent.marks.separate, hm.ordered, hm.apart, hm.holds⟩ hz

/-- At first no space is planned. -/
lemma Unplanned.plannedAlone (hm : h.Unplanned objs zones) :
    PlannedAlone limiter maximum h zones [] h where
  todo i z hz _ := by
    obtain ⟨s, hspace, hs⟩ := hm.liesOver.exists_space hz
    have hmem := List.mem_of_getElem? hz
    refine ⟨.refl _ hm.consistent.marks.begins_valid hm.consistent.marks.ends_valid,
      ⟨.refl _ _, fun r hr => ?_⟩, rfl, hm.consistent.laid, hm.consistent.bitmap_covered,
      hm.ordered z hmem, s, hspace, hm.consistent.covered ▸ hs⟩
    rw [hm.blank z hmem r hr.1 hr.2]
    exact (by decide : 0 < liveLimit)
  alone i z _ hi := absurd hi List.not_mem_nil
  outside := .refl _ _ hm.consistent.marks.begins_valid hm.consistent.marks.ends_valid

namespace PlannedAlone

/-- What one more job does. -/
lemma step (hp : PlannedAlone limiter maximum h zones done g) (hm : h.Unplanned objs zones)
    (hcloses : ClosesGaps μ minimum) (hz : zones[i]? = some z) (hi : i ∉ done) :
    Leads (fun fault => planSpace limiter maximum i h = .error fault)
      (planSpace limiter maximum i) g fun _ g' =>
      PlannedAlone limiter maximum h zones (i :: done) g' ∧ g.SameElsewhere i z g' := by
  have ht := hp.todo i z hz hi
  have hbounds : z.Bounds g.table.geometry.regionWords objs := by
    rw [← hp.outside.table.shape.geometry]
    exact hm.bounds (List.mem_of_getElem? hz)
  have hjob := planSpace_local ht hcloses hm.consistent.marks hbounds limiter maximum
  rw [Local] at hjob
  rw [Leads]
  generalize planSpace limiter maximum i g = x at hjob ⊢
  generalize hx' : planSpace limiter maximum i h = x' at hjob ⊢
  cases hjob with
  | error fault => rfl
  | @ok out out' rel =>
    obtain ⟨_, g'⟩ := out
    obtain ⟨_, k⟩ := out'
    obtain ⟨-, htwins, hrest, -⟩ := rel
    have hapart : ∀ j z', zones[j]? = some z' → j ≠ i → z.Apart z' := fun j z' hz' hne =>
      Zone.apart_of_ne hm.apart hz hz' hne.symm
    refine ⟨⟨fun j z' hz' hj => ?_, fun j z' hz' hj => ?_, ?_⟩, hrest⟩
    · rw [List.mem_cons, not_or] at hj
      exact (hp.todo j z' hz' hj.2).of_sameElsewhere hrest hj.1 (hapart j z' hz' hj.1)
    · by_cases heq : j = i
      · subst heq
        cases hz.symm.trans hz'
        exact ⟨k, hx', htwins⟩
      · obtain ⟨k', hk', htwins'⟩ := hp.alone j z' hz' ((List.mem_cons.1 hj).resolve_left heq)
        exact ⟨k', hk', htwins'.of_sameElsewhere hrest heq (hapart j z' hz' heq)⟩
    · exact hp.outside.of_sameElsewhere hrest fun r hr => hr z (List.mem_of_getElem? hz)

/-- Jobs in any order, each at most once: the spaces are planned as if each had been planned alone,
or one of them cannot be planned alone either. -/
theorem run (hp : PlannedAlone limiter maximum h zones done g) (hm : h.Unplanned objs zones)
    (hcloses : ClosesGaps μ minimum) {order : List ℕ} (hnodup : order.Nodup)
    (hlt : ∀ i ∈ order, i < zones.length) (hdisjoint : ∀ i ∈ order, i ∉ done) :
    Leads (fun fault => ∃ i ∈ order, planSpace limiter maximum i h = .error fault)
      (order.forM (planSpace limiter maximum)) g
      fun _ g' => PlannedAlone limiter maximum h zones (order.reverse ++ done) g' := by
  induction order generalizing g done with
  | nil => exact hp
  | cons i rest ih =>
    obtain ⟨hnotin, hnodup⟩ := List.nodup_cons.1 hnodup
    obtain ⟨z, hz⟩ : ∃ z, zones[i]? = some z :=
      ⟨_, List.getElem?_eq_getElem (hlt i List.mem_cons_self)⟩
    have hstep := hp.step hm hcloses hz (hdisjoint i List.mem_cons_self)
    refine leads_forM_cons.2 ((hstep.mono fun _ g₁ hp₁ => ?_).widen fun fault hfault => ⟨i,
      List.mem_cons_self, hfault⟩)
    have hrest := ih hp₁.1 hnodup (fun j hj => hlt j (List.mem_cons_of_mem _ hj)) fun j hj => ?_
    · rw [List.reverse_cons, List.append_assoc]
      exact hrest.widen fun fault hfault => hfault.imp fun j hj =>
        ⟨List.mem_cons_of_mem _ hj.1, hj.2⟩
    · rw [List.mem_cons, not_or]
      exact ⟨fun heq => hnotin (heq ▸ hj), hdisjoint j (List.mem_cons_of_mem _ hj)⟩

/-- A zone has been planned in both heaps, or in none. -/
lemma exists_twins (hp : PlannedAlone limiter maximum h zones done g)
    (hp' : PlannedAlone limiter maximum h zones done' g') (hsame : ∀ i, i ∈ done ↔ i ∈ done')
    (hz : zones[i]? = some z) : ∃ k, Twins i z g k ∧ Twins i z g' k := by
  by_cases hi : i ∈ done
  · obtain ⟨k, hk, ht⟩ := hp.alone i z hz hi
    obtain ⟨k', hk', ht'⟩ := hp'.alone i z hz ((hsame i).1 hi)
    cases hk.symm.trans hk'
    exact ⟨k, ht, ht'⟩
  · exact ⟨h, hp.todo i z hz hi, hp'.todo i z hz fun hi' => hi ((hsame i).2 hi')⟩

/-- Which spaces have been planned tells everything. -/
lemma samePlan (hp : PlannedAlone limiter maximum h zones done g)
    (hp' : PlannedAlone limiter maximum h zones done' g') (hsame : ∀ i, i ∈ done ↔ i ∈ done')
    (hlength : h.spaces.length = zones.length) : g.SamePlan g' := by
  have hout := hp.outside
  have hout' := hp'.outside
  have hgeometry : g'.table.geometry = g.table.geometry :=
    hout'.table.shape.geometry.symm.trans hout.table.shape.geometry
  -- A region is one of some zone, or lies outside of them all.
  have hpart : ∀ r, (∃ i z k, zones[i]? = some z ∧ z.Owns r ∧ Twins i z g k ∧ Twins i z g' k)
      ∨ ∀ z ∈ zones, ¬z.Owns r := by
    intro r
    by_cases hr : ∃ z ∈ zones, z.Owns r
    · obtain ⟨z, hmem, hz⟩ := hr
      obtain ⟨i, hi⟩ := List.mem_iff_getElem?.1 hmem
      obtain ⟨k, ht, ht'⟩ := hp.exists_twins hp' hsame hi
      exact .inl ⟨i, z, k, hi, hz, ht, ht'⟩
    · exact .inr fun z hmem hz => hr ⟨z, hmem, hz⟩
  refine ⟨hout'.bitmap.covered.symm.trans hout.bitmap.covered,
    hout'.bitmap.begins.size_eq.symm.trans hout.bitmap.begins.size_eq,
    hout.table.shape.trans hout'.table.shape.symm, fun w => ?_, fun w => ?_, fun r =>
      ?_, fun b => ?_,
    List.ext_getElem? fun j => ?_⟩
  · rcases hpart (w / g.table.geometry.regionWords) with ⟨i, z, k, _, hz, ht, ht'⟩ | hnone
    · exact (ht'.bitmap.begins.mem_eq w (by rwa [hgeometry])).symm.trans
        (ht.bitmap.begins.mem_eq w hz)
    · exact (hout'.bitmap.begins.mem_eq w (by rwa [hgeometry])).symm.trans
        (hout.bitmap.begins.mem_eq w hnone)
  · rcases hpart (w / g.table.geometry.regionWords) with ⟨i, z, k, _, hz, ht, ht'⟩ | hnone
    · exact (ht'.bitmap.ends.mem_eq w (by rwa [hgeometry])).symm.trans (ht.bitmap.ends.mem_eq w hz)
    · exact (hout'.bitmap.ends.mem_eq w (by rwa [hgeometry])).symm.trans
        (hout.bitmap.ends.mem_eq w hnone)
  · rcases hpart r with ⟨i, z, k, _, hz, ht, ht'⟩ | hnone
    · exact (ht'.table.regions r hz).symm.trans (ht.table.regions r hz)
    · exact (hout'.table.regions r hnone).symm.trans (hout.table.regions r hnone)
  · rcases hpart (b / g.table.geometry.blocksPerRegion) with ⟨i, z, k, _, hz, ht, ht'⟩ | hnone
    · exact (ht'.table.blocks b (by rwa [hgeometry])).symm.trans (ht.table.blocks b hz)
    · exact (hout'.table.blocks b (by rwa [hgeometry])).symm.trans (hout.table.blocks b hnone)
  · cases hz : zones[j]? with
    | some z =>
      obtain ⟨k, ht, ht'⟩ := hp.exists_twins hp' hsame hz
      exact ht'.space.symm.trans ht.space
    | none =>
      have hj : h.spaces.length ≤ j := hlength ▸ List.getElem?_eq_none_iff.1 hz
      rw [List.getElem?_eq_none (hout'.length_eq ▸ hj), List.getElem?_eq_none (hout.length_eq ▸ hj)]

/-- A zone has been planned as if alone, or not at all. -/
lemma exists_twin (hp : PlannedAlone limiter maximum h zones done g) (hz : zones[i]? = some z) :
    ∃ k, Twins i z g k := by
  obtain ⟨k, ht, _⟩ := hp.exists_twins hp (fun _ => .rfl) hz
  exact ⟨k, ht⟩

/-- The next job changes nothing that belongs to another space. -/
lemma job_frame (hp : PlannedAlone limiter maximum h zones done g) (hm : h.Unplanned objs zones)
    (hcloses : ClosesGaps μ minimum) (hlt : i < zones.length) (hi : i ∉ done)
    (hg' : planSpace limiter maximum i g = .ok ((), g')) (hne : j ≠ i)
    (hs : g.spaces[j]? = some s) :
    g'.spaces[j]? = some s ∧ SameIn s g g' := by
  obtain ⟨z, hz⟩ : ∃ z, zones[i]? = some z := ⟨_, List.getElem?_eq_getElem hlt⟩
  have hrest := ((hp.step hm hcloses hz hi).of_eq hg').2
  obtain ⟨z', hz'⟩ : ∃ z', zones[j]? = some z' := by
    have hj : j < g.spaces.length := (List.getElem?_eq_some_iff.1 hs).1
    rw [← hp.outside.length_eq, hm.liesOver.length_eq] at hj
    exact ⟨_, List.getElem?_eq_getElem hj⟩
  obtain ⟨k, ht⟩ := hp.exists_twin hz'
  obtain ⟨s', hs', hover⟩ := ht.liesOver
  cases hs.symm.trans hs'
  exact ⟨(hrest.spaces j hne).trans hs,
    hrest.sameIn hover ht.bitmap_covered (Zone.apart_of_ne hm.apart hz hz' hne.symm)⟩

end PlannedAlone

/-- What one order of the spaces comes to, every other one comes to. -/
theorem Unplanned.runs_of_perm (hm : h.Unplanned objs zones) (hcloses : ClosesGaps μ minimum)
    {order order' : List ℕ} (horder : order.Perm (List.range h.spaces.length))
    (horder' : order'.Perm (List.range h.spaces.length))
    (hg : order.forM (planSpace limiter maximum) h = .ok ((), g)) :
    Runs (order'.forM (planSpace limiter maximum)) h fun _ g' => g.SamePlan g' := by
  have hlength := hm.liesOver.length_eq
  have hmem : ∀ i, i ∈ order ↔ i < zones.length := fun i => by
    rw [horder.mem_iff, List.mem_range, hlength]
  have hmem' : ∀ i, i ∈ order' ↔ i < zones.length := fun i => by
    rw [horder'.mem_iff, List.mem_range, hlength]
  have hstart : PlannedAlone limiter maximum h zones [] h := hm.plannedAlone
  have hp :=
    (hstart.run hm hcloses (horder.nodup_iff.2 List.nodup_range)
      (fun i hi => (hmem i).1 hi) fun _ _ =>
    List.not_mem_nil).of_eq hg
  have hrun := hstart.run hm hcloses (horder'.nodup_iff.2 List.nodup_range)
    (fun i hi => (hmem' i).1 hi) fun _ _ =>
    List.not_mem_nil
  refine (hrun.runs fun fault ⟨i, hi, hfault⟩ => ?_).mono fun _ g' hp' =>
    hp.samePlan hp' (fun i => ?_) hlength
  · obtain ⟨z, hz⟩ : ∃ z, zones[i]? = some z := ⟨_, List.getElem?_eq_getElem ((hmem' i).1 hi)⟩
    obtain ⟨k, hk, _⟩ := hp.alone i z hz (by simp [hmem, (hmem' i).1 hi])
    rw [hfault] at hk
    cases hk
  · simp [hmem, hmem']

/-! ## Heaps that wait for their plan -/

omit [ObjectModel μ] in
/-- The spaces of the heap would be accepted, the live objects are marked below their tops, and
nothing is planned. -/
structure AwaitsPlan (h : Heap μ) (objs : List Span) : Prop where
  consistent : h.Consistent objs
  aligned : bytesPerWord ∣ h.covered.start
  accepted : checkSpaces h.covered h.geometry h.covered.start (h.spaces.map Space.config) = .ok ()
  starts : ∀ s ∈ h.spaces, s.starts.covered = ⟨s.bottom, s.limit - s.bottom⟩
  inside : ∀ o ∈ objs, ∃ s ∈ h.spaces, s.bottom ≤ h.covered.addr o.start
    ∧ h.covered.addr o.past ≤ s.top
  blank : ∀ s ∈ h.spaces, ∀ r, s.contains (h.table.regionStart r) = true →
    h.table.regions.get r = {}
  outside : ∀ r, (∀ s ∈ h.spaces, s.contains (h.table.regionStart r) = false) →
    (h.table.regions.get r).partialWords = 0

omit [ObjectModel μ] in
/-- The accepted spaces lie over zones that are apart. -/
lemma AwaitsPlan.unplanned (hw : h.AwaitsPlan objs) : h.Unplanned objs h.zones := by
  have hcovered := hw.consistent.covered
  have hgeometry := hw.consistent.geometry
  obtain ⟨hfits, hpairwise⟩ := checkSpaces_spec hw.accepted
  have hover : ∀ s ∈ h.spaces,
      s.Over h.table.covered h.table.geometry.regionWords (s.zone h.covered h.geometry)
      ∧ (s.zone h.covered h.geometry).Ordered h.table.geometry.regionWords h.table.covered.words :=
        fun s hs => by
    rw [← hcovered, ← hgeometry]
    exact Space.over_zone (hfits s.config (List.mem_map_of_mem hs))
      (hgeometry ▸ hw.consistent.laid.regionWords_lt) hw.aligned
      (hw.starts s hs)
  have hW := h.table.geometry.regionWords_pos
  have howns : ∀ s ∈ h.spaces, ∀ r, s.contains (h.table.regionStart r) = true
      ↔ (s.zone h.covered h.geometry).Owns r := by
    intro s hs r
    rw [RegionTable.Laid.regionStart_eq, (hover s hs).1.contains_addr, Nat.mul_le_mul_right_iff hW,
      Nat.mul_lt_mul_right hW]
    rfl
  have hzones : ∀ z ∈ h.zones, ∃ s ∈ h.spaces, z = s.zone h.covered h.geometry := fun z hz => by
    obtain ⟨s, hs, rfl⟩ := List.mem_map.1 hz
    exact ⟨s, hs, rfl⟩
  refine ⟨hw.consistent, ?_, fun z hz => ?_, fun z hz => ?_, ?_, fun o ho => ?_,
    fun z hz r h1 h2 => ?_, fun r hr => ?_⟩
  · exact List.forall₂_map_right_iff.2 (List.forall₂_same.2 fun s hs => (hover s hs).1)
  · obtain ⟨s, hs, rfl⟩ := hzones z hz
    exact (hover s hs).2
  · obtain ⟨s, hs, rfl⟩ := hzones z hz
    rfl
  · refine List.pairwise_map.2 ((List.pairwise_map.1 hpairwise).imp fun hle => ?_)
    exact .inl (Nat.div_le_div_right (Nat.sub_le_sub_right hle _))
  · obtain ⟨s, hs, h1, h2⟩ := hw.inside o ho
    rw [(hover s hs).1.bottom, ← hcovered, Extent.addr_le_addr] at h1
    rw [(hover s hs).1.top, ← hcovered, Extent.addr_le_addr] at h2
    exact ⟨_, List.mem_map_of_mem hs, h1, h2⟩
  · obtain ⟨s, hs, rfl⟩ := hzones z hz
    exact hw.blank s hs r ((howns s hs r).2 ⟨h1, h2⟩)
  · refine hw.outside r fun s hs => Bool.eq_false_iff.2 fun hcontains => ?_
    exact hr _ (List.mem_map_of_mem hs) ((howns s hs r).1 hcontains)

/-- The spaces of a heap are planned in any order.  What one order comes to, every other one comes
to; a host whose fillers fit never meets a fault; and the job of a space changes nothing that
belongs to another one, whatever jobs have run before. -/
theorem planSpaces_any_order (hw : h.AwaitsPlan objs) (hcloses : ClosesGaps μ minimum)
    (limiter : Limiter) (maximum : Bool) {order order' : List ℕ}
    (horder : order.Perm (List.range h.spaces.length))
    (horder' : order'.Perm (List.range h.spaces.length)) :
    (∀ g, order.forM (planSpace limiter maximum) h = .ok ((), g) →
        Runs (order'.forM (planSpace limiter maximum)) h fun _ g' => g.SamePlan g')
      ∧ (h.FillersFit objs h.zones minimum →
        Runs (order.forM (planSpace limiter maximum)) h fun _ _ => True)
      ∧ ∀ before i rest, order = before ++ i :: rest → ∀ g g',
        before.forM (planSpace limiter maximum) h = .ok ((), g) →
        planSpace limiter maximum i g = .ok ((), g') → ∀ j s, j ≠ i → g.spaces[j]? = some s →
          g'.spaces[j]? = some s ∧ SameIn s g g' := by
  have hm := hw.unplanned
  refine ⟨fun g hg => ?_, fun hfits => ?_, ?_⟩
  · exact hm.runs_of_perm hcloses horder horder' hg
  · obtain ⟨_, g, hg, _⟩ := hm.planSpaces_runs hcloses hfits limiter maximum
    exact (hm.runs_of_perm hcloses (.refl _) horder hg).mono fun _ _ _ => trivial
  · rintro before i rest rfl g g' hg hg' j s hne hs
    have hnodup := horder.nodup_iff.2 List.nodup_range
    have hlt : ∀ x ∈ before ++ i :: rest, x < h.zones.length := fun x hx => by
      rw [horder.mem_iff, List.mem_range, hm.liesOver.length_eq] at hx
      exact hx
    have hp :=
      (hm.plannedAlone.run hm hcloses hnodup.of_append_left
        (fun x hx => hlt x (List.mem_append_left _ hx))
      fun _ _ => List.not_mem_nil).of_eq hg
    have hi : i ∉ before := fun hi => List.disjoint_of_nodup_append hnodup hi (by simp)
    exact hp.job_frame hm hcloses (hlt i (by simp)) (by simpa using hi) hg' hne hs

/-- A heap of two spaces over two regions each, in which nothing is marked. -/
def twoSpaces : Heap MemoryImage :=
  { fourRegions with
    spaces := [{ Space.ofConfig (.old "young" 64 128) with top := 112 },
      { Space.ofConfig (.old "old" 128 192) with top := 176 }] }

/-- The upper space first, or the lower one, with an object in each. -/
theorem planSpaces_any_order_twoSpaces : ∃ m, (do
      let (_, m) ← twoSpaces.bitmap.mark (twoSpaces.covered.addr 1) 3
      let (_, m) ← m.mark (twoSpaces.covered.addr 10) 2
      pure m) = .ok m
    ∧ ({ twoSpaces with bitmap := m } : Heap MemoryImage).AwaitsPlan [⟨10, 2⟩, ⟨1, 3⟩]
    ∧ [1, 0].Perm (List.range 2) ∧ [0, 1].Perm (List.range 2)
    ∧ Runs ([1, 0].forM (planSpace (.ofPercent 50 80) false))
      { twoSpaces with bitmap := m } fun _ g =>
      Runs ([0, 1].forM (planSpace (.ofPercent 50 80) false))
        { twoSpaces with bitmap := m } fun _ g' => g.SamePlan g' := by
  obtain ⟨m, heq, hmarked⟩ := fourRegions_marked
  have haccepted : checkSpaces twoSpaces.covered twoSpaces.geometry twoSpaces.covered.start
      (twoSpaces.spaces.map Space.config) = .ok () :=
    checkSpaces_cons_iff.2 ⟨by constructor <;> decide,
      checkSpaces_cons_iff.2 ⟨by constructor <;> decide, rfl⟩⟩
  have hw : ({ twoSpaces with bitmap := m } : Heap MemoryImage).AwaitsPlan [⟨10, 2⟩, ⟨1, 3⟩] :=
    { consistent := ⟨hmarked.consistent.laid, hmarked.consistent.marks,
        hmarked.consistent.bitmap_covered, rfl, rfl⟩
      aligned := (by decide : bytesPerWord ∣ twoSpaces.covered.start)
      accepted := haccepted
      starts := by simp [twoSpaces, Space.ofConfig, StartTable.unrecorded, SpaceConfig.old]
      inside := by
        simp [twoSpaces, fourRegions, Space.ofConfig, SpaceConfig.old, Extent.addr_eq, Span.past]
      blank := fun _ _ r _ => hmarked.blank r
      outside := fun r _ => congrArg Region.partialWords (hmarked.blank r) }
  have hupper : [1, 0].Perm (List.range twoSpaces.spaces.length) := .swap ..
  have hlower : [0, 1].Perm (List.range twoSpaces.spaces.length) := .refl _
  have hany := planSpaces_any_order hw MemoryImage.closesGaps (.ofPercent 50 80) false hupper hlower
  obtain ⟨_, g, hg, _⟩ := hany.2.1 (fillersFit_one _ _ _)
  exact ⟨m, heq, hw, .swap .., .refl _, (), g, hg, hany.1 g hg⟩

end Heap

end MarkCompact
