import MarkCompact.Proofs.Planning
import MarkCompact.Sample.Memory

/-!
# Forwarding in a planned space

Whatever boundary a space has been planned around, forwarding is the arithmetic of `Zone.forward`,
and neither the recording of block offsets nor forwarding itself changes what other words forward
to.

Main statements: `addObjects_runs` (objects that are added are marked and accounted),
`forwardAll_runs` (forwarding in a planned table), `Zone.compacts` (the plan keeps the order of live
words and keeps objects whole) and `planned_forwarding`, which puts them together.
-/

namespace MarkCompact

variable {objs os others : List Span} {W w : ℕ} {z : Zone}

/-! ## What a plan preserves -/

/-- A map of words that keeps the order of live words, moves no word to the right and keeps objects
whole. -/
structure Compacts (objs : List Span) (f : ℕ → ℕ) : Prop where
  lt : ∀ x y, Live objs x → x < y → f x < f y
  le : ∀ x, f x ≤ x
  whole : ∀ o ∈ objs, ∀ k, k < o.words → f (o.start + k) = f o.start + k

/-- The words of an object stay together. -/
lemma Zone.forward_add (z : Zone) (W : ℕ) {o : Span} (ho : o ∈ objs) {k : ℕ} (hk : k < o.words) :
    z.forward W objs (o.start + k) = z.forward W objs o.start + k := by
  have hpast : o.past = o.start + o.words := rfl
  rw [Zone.forward, Zone.forward]
  by_cases hlow : o.start + k < z.keep * W
  · rw [if_pos hlow, if_pos (by omega)]
  rw [if_neg hlow]
  have hcount := liveBelow_covers (w := o.start + k) ho (by omega) (by omega)
  by_cases hstart : o.start < z.keep * W
  · -- The object reaches across the end of the prefix, so all words from there on are live.
    have hkeep := liveBelow_covers ho (le_of_lt hstart) (show z.keep * W ≤ o.past by omega)
    rw [if_pos hstart, Zone.packed]
    omega
  · have hadd : z.packed W objs (o.start + k) = _ :=
      z.packed_add (not_lt.1 hstart) (Nat.le_add_right ..)
    rw [if_neg hstart, hadd]
    omega

/-- A plan compacts. -/
theorem Zone.compacts (z : Zone) (W : ℕ) (objs : List Span) : Compacts objs (z.forward W objs) where
  lt _ _ hx h := z.forward_lt hx h
  le x := z.forward_le W objs x
  whole _ ho _ hk := z.forward_add W ho hk

/-! ## Adding objects -/

namespace Heap

variable {μ : Type} {h h' : Heap μ} {s : Space} {i : ℕ}

/-- What the heap `h'` holds after the objects `os` have been added to `h`, which has `objs`. -/
structure ObjectsAdded (h h' : Heap μ) (objs os : List Span) : Prop where
  covered : h'.covered = h.covered
  geometry : h'.geometry = h.geometry
  spaces : h'.spaces = h.spaces
  image : h'.image = h.image
  consistent : h'.Consistent (os.reverse ++ objs)
  shape : h.table.SameShape h'.table
  regions : ∀ r, h'.table.regions.get r
    = (h.table.regions.get r).accountAll h.table.geometry.regionWords h.table.covered os r

/-- Objects that are apart are marked and accounted one after the other. -/
theorem addObjects_runs (hc : h.Consistent objs) (hsep : Separate (os.reverse ++ objs))
    (hpast : ∀ o ∈ os, o.past ≤ h.table.covered.words)
    (hacc : ∀ o ∈ os, (h.table.regions.get (o.start / h.table.geometry.regionWords)).Accounts objs
      h.table.geometry.regionWords (o.start / h.table.geometry.regionWords)) :
    Runs (os.forM fun o => do let _ ← addObject (h.table.covered.addr o.start) o.words)
      h fun _ h' =>
      h.ObjectsAdded h' objs os := by
  have hW := h.table.geometry.regionWords_pos
  induction os generalizing h objs with
  | nil => exact runs_forM_nil.2 ⟨rfl, rfl, rfl, rfl, hc, .refl _, fun _ => rfl⟩
  | cons o rest ih =>
    rw [List.reverse_cons, List.append_assoc] at hsep
    have hhead : Separate (o :: objs) :=
      ⟨fun o' ho' => hsep.words_pos o' (List.mem_append_right _ ho'),
        (List.pairwise_append.1 hsep.pairwise).2.1⟩
    have hpast₁ := hpast o (List.mem_cons_self ..)
    obtain ⟨h1, h2⟩ := div_mul_bounds hW o.start
    obtain ⟨m', hmark, hmarks, hcovered⟩ :=
      hc.marks.mark_eq hhead (by rw [hc.words_eq]; exact hpast₁)
      (by rw [hc.words_eq]; exact hc.laid.words_lt)
    obtain ⟨t', htable, hshape, _, hregions⟩ := RegionTable.addObject_eq hc.laid
      (hhead.words_pos o (List.mem_cons_self ..)) hpast₁
      ((hacc o (List.mem_cons_self ..)).head_room hhead hc.laid.regionWords_lt h1 h2)
    rw [hc.bitmap_covered] at hmark
    rw [runs_forM_cons, addObject]
    simp only [runs_bind, runs_get, hmark, runs_check_ok, runs_set]
    refine (runs_onTable htable).2 (runs_pure.2 (runs_pure.2 ?_))
    have hgeometry := hshape.geometry
    have hcovered' := hshape.covered
    have hrest := ih (h := { h with bitmap := m', table := t' })
      ⟨hshape.laid hc.laid, hmarks, hcovered.trans (hc.bitmap_covered.trans hcovered'.symm),
        hc.covered.trans hcovered'.symm, hc.geometry.trans hgeometry.symm⟩ hsep
      (fun o' ho' => by rw [hcovered']; exact hpast o' (List.mem_cons_of_mem _ ho'))
      (fun o' ho' => by
        rw [hgeometry, hregions]
        exact (hacc o' (List.mem_cons_of_mem _ ho')).account _ hhead hW hc.laid.regionWords_lt)
      (by rw [hgeometry]; exact hW)
    simp only [hcovered'] at hrest
    refine hrest.mono fun _ h' hadded => ?_
    exact
      { covered := hadded.covered
        geometry := hadded.geometry
        spaces := hadded.spaces
        image := hadded.image
        consistent := by
          rw [List.reverse_cons, List.append_assoc]
          exact hadded.consistent
        shape := hshape.trans hadded.shape
        regions := fun r => by
          rw [hadded.regions]
          simp only [hgeometry, hcovered', hregions]
          rfl }

end Heap

/-! ## Blank regions -/

/-- An object that misses the zone has no word in its regions. -/
lemma Zone.Misses.out {o : Span} {r : ℕ} (h : z.Misses W o) (h1 : z.first ≤ r) (h2 : r < z.last) :
    o.past ≤ r * W ∨ r * W + W ≤ o.start := by
  have hfirst := Nat.mul_le_mul_right W h1
  have hlast := Nat.mul_le_mul_right W (show r + 1 ≤ z.last from h2)
  rw [Nat.succ_mul] at hlast
  rcases h with hout | hout
  · exact Or.inl (by omega)
  · exact Or.inr (by omega)

lemma Region.accounts_of_misses {r : ℕ} (hmiss : ∀ o ∈ others, z.Misses W o) (h1 : z.first ≤ r)
    (h2 : r < z.last) :
    ({} : Region).Accounts others W r := by
  refine Region.accounts_blank ?_ ?_
  · rintro w hw1 hw2 ⟨o, ho, hcov⟩
    obtain ⟨hcov1, hcov2⟩ := hcov
    rcases (hmiss o ho).out h1 h2 with hout | hout <;> omega
  · rintro o ho ⟨hlow, hhigh⟩
    rcases (hmiss o ho).out h1 h2 with hout | hout <;> omega

namespace RegionTable

variable {t t' : RegionTable}

/-- Accounting objects in blank regions. -/
lemma accounted_of_blank (ht : t.Laid) (hshape : t.SameShape t')
    (hsep : Separate (os.reverse ++ others))
    (hmiss : ∀ o ∈ others, z.Misses t.geometry.regionWords o)
    (hblank : ∀ r, z.first ≤ r → r < z.last → t.regions.get r = {})
    (hget : ∀ r, t'.regions.get r
      = (t.regions.get r).accountAll t.geometry.regionWords t.covered os r) :
    t'.Accounted (os.reverse ++ others) z.first z.last := by
  have hW := t.geometry.regionWords_pos
  have hacc := fun r h1 h2 =>
    (Region.accounts_of_misses (r := r) hmiss h1 h2).accountAll (e := t.covered) hsep hW
    ht.regionWords_lt
  have hsame := fun r => Region.samePlan_accountAll t.geometry.regionWords t.covered os r {}
  refine ⟨fun r h1 h2 => ?_, fun r h1 h2 _ => ?_, fun r h1 h2 => ?_, fun r h1 h2 => ?_,
    fun r h1 h2 => ?_⟩ <;>
    rw [hget, hblank r h1 h2]
  · rw [hshape.geometry]
    exact (hacc r h1 h2).1
  · exact (hacc r h1 h2).2
  · exact (hsame r).deferred
  · exact (hsame r).blocksFilled
  · exact (hsame r).pushed

/-- The region in which an object of a blank zone starts counts no word of other objects. -/
lemma accounts_of_blank {o : Span} {words : ℕ}
    (hmiss : ∀ o ∈ others, z.Misses t.geometry.regionWords o)
    (hblank : ∀ r, z.first ≤ r → r < z.last → t.regions.get r = {})
    (hz : z.Ordered t.geometry.regionWords words) (hholds : z.Holds t.geometry.regionWords o)
    (hpos : o.start < o.past) :
    (t.regions.get (o.start / t.geometry.regionWords)).Accounts others t.geometry.regionWords
      (o.start / t.geometry.regionWords) := by
  obtain ⟨h1, h2⟩ := hholds.region hz t.geometry.regionWords_pos hpos
  rw [hblank _ h1 h2]
  exact Region.accounts_of_misses hmiss h1 h2

end RegionTable

namespace Heap

section

variable {μ : Type} {h : Heap μ} (hc : h.Consistent others)
  (hz : z.Ordered h.table.geometry.regionWords h.table.covered.words)
  (hothers : ∀ o ∈ others, z.Misses h.table.geometry.regionWords o)
  (hblank : ∀ r, z.first ≤ r → r < z.last → h.table.regions.get r = {})
  (hos : Separate os) (hholds : ∀ o ∈ os, z.Holds h.table.geometry.regionWords o)
include hothers hholds

/-- Each object lies in the space or outside of it. -/
lemma bounds_added : z.Bounds h.table.geometry.regionWords (os.reverse ++ others) := fun o ho =>
  (List.mem_append.1 ho).imp (fun hin => hholds o (List.mem_reverse.1 hin)) (hothers o)

include hc hz hos

/-- The objects have no word in common with one another or with other objects. -/
lemma separate_added : Separate (os.reverse ++ others) := by
  have htop := hz.top_le_last
  refine (hos.perm os.reverse_perm.symm).append hc.marks.separate fun o ho o' ho' => ?_
  obtain ⟨h1, h2⟩ := hholds o (List.mem_reverse.1 ho)
  rcases hothers o' ho' with hout | hout
  · exact Or.inr (by omega)
  · exact Or.inl (by omega)

include hblank

/-- Objects are added to a space without any. -/
lemma addObjects_blank_runs :
    Runs (os.forM fun o => do let _ ← addObject (h.table.covered.addr o.start) o.words)
      h fun _ h' => h.ObjectsAdded h' others os
        ∧ h'.table.Accounted (os.reverse ++ others) z.first z.last := by
  have hsep := separate_added hc hz hothers hos hholds
  have htop := hz.top_le_last
  have hwords := hz.last_le
  have hpast : ∀ o ∈ os, o.past ≤ h.table.covered.words := fun o ho => by
    have := (hholds o ho).2
    omega
  have hacc := fun o ho =>
    RegionTable.accounts_of_blank hothers hblank hz (hholds o ho) (hos.start_lt_past ho)
  refine (addObjects_runs hc hsep hpast hacc).mono fun _ h' hadded => ?_
  exact ⟨hadded,
    RegionTable.accounted_of_blank hc.laid hadded.shape hsep hothers hblank hadded.regions⟩

end

end Heap

namespace RegionTable

variable {t t' : RegionTable}

/-! ## Block offsets that are recorded at any time -/

/-- The table `t'` is reached from `t` by recording the block offsets of regions of the zone and by
forwarding live words of the zone, in any order. -/
inductive Touched (m : MarkBitmap) (objs : List Span) (z : Zone) (t : RegionTable) :
    RegionTable → Prop
  | refl : Touched m objs z t t
  | fill {t₁ t₂ : RegionTable} (r : ℕ) (h : Touched m objs z t t₁) (h1 : z.first ≤ r)
      (h2 : r < z.last) (heq : t₁.fillBlocks m r = .ok t₂) : Touched m objs z t t₂
  | forward {t₁ t₂ : RegionTable} {addr w : ℕ} (h : Touched m objs z t t₁)
      (h1 : z.first * t.geometry.regionWords ≤ w) (h2 : w < z.last * t.geometry.regionWords)
      (hw : Live objs w) (heq : t₁.forward m (t.covered.addr w) = .ok (addr, t₂)) :
      Touched m objs z t t₂

section

variable {m : MarkBitmap} (hplanned : t.Planned objs z) (ht : t.Laid) (hm : m.Marks objs)
  (hcovered : m.covered = t.covered) (hz : z.Ordered t.geometry.regionWords t.covered.words)
  (hbounds : z.Bounds t.geometry.regionWords objs)
include hplanned ht hm hcovered hz

omit ht hm hcovered hz in
lemma Planned.partial_eq {r : ℕ} (h1 : z.first ≤ r) (h2 : r < z.last) :
    (t.regions.get r).partialWords = partialOf objs t.geometry.regionWords r := by
  by_cases hkeep : r < z.keep
  · exact (hplanned.stays r h1 hkeep).partial_eq
  · exact (hplanned.accounted.accounts r (not_lt.1 hkeep) h2).partial_eq

omit ht hm hcovered hz in
lemma Planned.blocksValid {r : ℕ} (h1 : z.first ≤ r) (h2 : r < z.last) : t.BlocksValid objs r := by
  have hfilled : (t.regions.get r).blocksFilled = false := by
    by_cases hkeep : r < z.keep
    · exact (hplanned.stays r h1 hkeep).blocksFilled
    · exact hplanned.accounted.blocksFilled r (not_lt.1 hkeep) h2
  intro h
  rw [hfilled] at h
  cases h

/-- In a planned table, the block offsets of any region can be recorded. -/
theorem Planned.fillBlocks_eq (h : Refilled objs t t') {r : ℕ} (h1 : z.first ≤ r)
    (h2 : r < z.last) :
    ∃ t'', t'.fillBlocks m r = .ok t'' ∧ Refilled objs t t'' := by
  have hlast : z.last ≤ t.geometry.regionCount := by
    have hwords := hz.last_le
    rw [ht.covered_words] at hwords
    exact Nat.le_of_mul_le_mul_right hwords t.geometry.regionWords_pos
  obtain ⟨t'', heq, hrefilled, _⟩ :=
    RegionTable.fillBlocks_eq (t := t') (r := r) (h.shape.laid ht) hm
    (by rw [h.shape.covered]; exact hcovered) (by rw [h.shape.geometry]; omega)
    (by rw [h.regions, h.shape.geometry]; exact hplanned.partial_eq h1 h2)
  exact ⟨t'', heq, h.trans hrefilled⟩

include hbounds

/-- In a planned table, live words are forwarded as planned. -/
theorem Planned.forward_eq (h : Refilled objs t t') (h1 : z.first * t.geometry.regionWords ≤ w)
    (h2 : w < z.last * t.geometry.regionWords) (hw : Live objs w) :
    ∃ t'', t'.forward m (t.covered.addr w)
      = .ok (t.covered.addr (z.forward t.geometry.regionWords objs w), t'')
      ∧ Refilled objs t t'' := by
  have hW := t.geometry.regionWords_pos
  have hfirst : z.first ≤ w / t.geometry.regionWords := (Nat.le_div_iff_mul_le hW).2 h1
  have hlast : w / t.geometry.regionWords < z.last := div_lt_of_lt_mul h2
  have htop : w / t.geometry.regionWords < upTo t.geometry.regionWords z.top := by
    have hlt := hbounds.mem_top_of_live hw h2 hz
    have hdiv := Nat.div_mul_le_self w t.geometry.regionWords
    exact (lt_upTo_iff hW).2 (by omega)
  have hsends := h.sends (hplanned.sends hz hfirst htop)
  have hvalid := h.valid _ (hplanned.blocksValid hfirst hlast)
  have hcovered' := h.shape.covered
  have hgeometry' := h.shape.geometry
  obtain ⟨t'', heq, hrefilled⟩ := RegionTable.forward_eq (t := t') (h.shape.laid ht) hm
    (by rw [hcovered']; exact hcovered) hw (by rw [hgeometry']; exact hsends)
      (by rw [hgeometry']; exact hvalid)
  rw [hcovered'] at heq
  exact ⟨t'', heq, h.trans hrefilled⟩

/-- Recording offsets and forwarding change nothing but the offsets. -/
theorem Planned.refilled_of_touched (h : Touched m objs z t t') : Refilled objs t t' := by
  induction h with
  | refl => exact .refl objs t
  | fill r _ h1 h2 heq ih =>
    obtain ⟨t'', heq', hrefilled⟩ := hplanned.fillBlocks_eq ht hm hcovered hz ih h1 h2
    rw [heq] at heq'
    cases heq'
    exact hrefilled
  | forward _ h1 h2 hw heq ih =>
    obtain ⟨t'', heq', hrefilled⟩ := hplanned.forward_eq ht hm hcovered hz hbounds ih h1 h2 hw
    rw [heq] at heq'
    cases heq'
    exact hrefilled

end

end RegionTable

/-! ## Any boundary -/

namespace Heap

variable {μ : Type} [ObjectModel μ] {h : Heap μ} {s : Space} {i : ℕ}

lemma PlannedAs.image_eq {h₁ : Heap μ} (hplan : h.PlannedAs h₁ i s objs objs z) :
    h₁.image = h.image := by
  rcases hplan.image with ⟨_, heq⟩ | ⟨o, heq, _⟩
  · exact heq
  · exact absurd (congrArg List.length heq) (by simp)

/-- A space that is planned again, after a plan that added no object, is planned as the second
time. -/
lemma PlannedAs.replaced {h₁ h₂ : Heap μ} {k newTop densePrefix : ℕ} {starts : StartTable}
    {objs' : List Span} (hplan : h.PlannedAs h₁ i s objs objs { z with keep := k })
    (hspaces : h₁.spaces = h.spaces.set i { s with newTop, densePrefix, starts })
    (hstarts : starts.covered = s.starts.covered)
    (hbetween : ∀ must may : ℕ → Prop, s.starts.Between h.table.covered must may →
      starts.Between h.table.covered must may)
    (hplanned : h₁.PlannedAs h₂ i { s with newTop, densePrefix, starts } objs objs' z) :
    h.PlannedAs h₂ i s objs objs' z := by
  have hcovered := hplan.shape.covered
  have hgeometry := hplan.shape.geometry
  have himage := hplan.image_eq
  have hfilled := hplanned.filled
  have hcrossed := hplanned.crossed
  have hadded := hplanned.image
  obtain ⟨starts', hspaces', hstarts', hbetween'⟩ := hplanned.spaces
  rw [hgeometry, himage] at hfilled
  rw [hgeometry] at hcrossed
  rw [himage, hcovered] at hadded
  rw [hcovered, hgeometry] at hspaces'
  rw [hcovered] at hbetween'
  exact
    { covered := hplanned.covered.trans hplan.covered
      geometry := hplanned.geometry.trans hplan.geometry
      updates := hplanned.updates.trans hplan.updates
      consistent := hplanned.consistent
      shape := hplan.shape.trans hplanned.shape
      blocks := hplanned.blocks.trans hplan.blocks
      planned := hplanned.planned
      other := fun r hr hout => by
        rw [hplanned.other r (by rw [hgeometry]; exact hr) hout, hplan.other r hr hout]
      filled := hfilled
      crossed := hcrossed
      image := hadded
      spaces := ⟨starts', by rw [hspaces', hspaces, List.set_set], hstarts'.trans hstarts,
        fun must may hmust => hbetween' must may (hbetween must may hmust)⟩ }

/-- A space that has been planned into itself is planned around the end of the prefix of the zone,
unless dead space there has no room for a filler. -/
theorem PlannedAs.around_leads {h₁ : Heap μ}
    (hplan : h.PlannedAs h₁ i s objs objs { z with keep := z.first })
    (hspace : h.spaces[i]? = some s) (hs : s.Over h.table.covered h.table.geometry.regionWords z)
    (hz : z.Ordered h.table.geometry.regionWords h.table.covered.words)
    (hbounds : z.Bounds h.table.geometry.regionWords objs)
    (htop : z.first < z.keep → z.keep * h.table.geometry.regionWords < z.top)
    (hfill : ∀ addr words, ObjectModel.minimumWords h.image ≤ words → 0 < words →
      ∃ image, ObjectModel.fillDead h.image addr words = .ok image) :
    Leads (fun _ => z.first < z.keep ∧ ¬FillerFits objs (z.first * h.table.geometry.regionWords)
        (z.keep * h.table.geometry.regionWords) z.top (ObjectModel.minimumWords h.image))
      (planAround i (h.table.covered.addr (z.keep * h.table.geometry.regionWords))) h₁ fun _ h' =>
      ∃ objs', h.PlannedAs h' i s objs objs' z := by
  have hlt := (List.getElem?_eq_some_iff.1 hspace).1
  obtain ⟨starts, hspaces, hstarts, hbetween⟩ := hplan.spaces
  have himage := hplan.image_eq
  have hcovered := hplan.shape.covered
  have hgeometry := hplan.shape.geometry
  have hs₁ := hs.withStarts hstarts
  have haround := planAround_leads (h := h₁) (i := i) (z := z) hplan.consistent
    (by rw [hspaces]; exact List.getElem?_set_self hlt)
    (by rw [hcovered, hgeometry]; exact ⟨hs.bottom, hs.limit, hs.top, hs₁.starts⟩)
    (by rw [hcovered, hgeometry]; exact hz) (by rw [hgeometry]; exact hbounds)
      hplan.planned.accounted
    (fun hkeep => by
      obtain ⟨first, keep, last, top⟩ := z
      cases hkeep
      rw [hcovered, hgeometry]
      exact ⟨hplan.planned, rfl⟩)
    (by rw [hgeometry]; exact htop) (by rw [himage]; exact hfill)
  rw [hcovered, hgeometry, himage] at haround
  refine haround.mono fun _ h₂ ⟨objs', hplanned⟩ =>
    ⟨objs', hplan.replaced hspaces hstarts (fun must may hmust => ?_) hplanned⟩
  exact hbetween must may hmust fun o ho hnot => absurd ho hnot

/-- A space whose objects are accounted is planned into itself and then around the end of the prefix
of the zone. -/
theorem planSpaceAround_runs (hc : h.Consistent objs) (hspace : h.spaces[i]? = some s)
    (hs : s.Over h.table.covered h.table.geometry.regionWords z)
    (hz : z.Ordered h.table.geometry.regionWords h.table.covered.words)
    (hbounds : z.Bounds h.table.geometry.regionWords objs)
    (hacc : h.table.Accounted objs z.first z.last)
    (htop : z.first < z.keep → z.keep * h.table.geometry.regionWords < z.top)
    (hfits : z.first < z.keep → FillerFits objs (z.first * h.table.geometry.regionWords)
      (z.keep * h.table.geometry.regionWords) z.top (ObjectModel.minimumWords h.image))
    (hfill : ∀ addr words, ObjectModel.minimumWords h.image ≤ words → 0 < words →
      ∃ image, ObjectModel.fillDead h.image addr words = .ok image) :
    Runs (do
        planFromBottom i
        planAround i (h.table.covered.addr (z.keep * h.table.geometry.regionWords))) h fun _ h' =>
      ∃ objs', h.PlannedAs h' i s objs objs' z :=
  (planFromBottom_runs (z := { z with keep := z.first }) hc hspace
    ⟨hs.bottom, hs.limit, hs.top, hs.starts⟩
    ⟨hz.first_lt_last, le_refl _, hz.first_le_top, hz.top_le_last,
      hz.last_le⟩ hbounds rfl hacc).bind
    fun _ _ hplan => (hplan.around_leads hspace hs hz hbounds htop hfill).runs fun _ hmisfit =>
      hmisfit.2 (hfits hmisfit.1)

/-- Whatever boundary a space is planned around, and whatever block offsets have been recorded
since, a live word of the space stays below the boundary and goes to the boundary plus the live
words between the two above it. -/
theorem planned_forwarding (hc : h.Consistent others) (hspace : h.spaces[i]? = some s)
    (hs : s.Over h.table.covered h.table.geometry.regionWords z)
    (hz : z.Ordered h.table.geometry.regionWords h.table.covered.words)
    (htop : z.keep * h.table.geometry.regionWords < z.top)
    (hothers : ∀ o ∈ others, z.Misses h.table.geometry.regionWords o)
    (hblank : ∀ r, z.first ≤ r → r < z.last → h.table.regions.get r = {})
    (hos : Separate os) (hholds : ∀ o ∈ os, z.Holds h.table.geometry.regionWords o)
    (hfits : z.first < z.keep → FillerFits (os.reverse ++ others)
      (z.first * h.table.geometry.regionWords) (z.keep * h.table.geometry.regionWords) z.top
        (ObjectModel.minimumWords h.image))
    (hfill : ∀ addr words, ObjectModel.minimumWords h.image ≤ words → 0 < words →
      ∃ image, ObjectModel.fillDead h.image addr words = .ok image) :
    Runs (do
        os.forM fun o => do let _ ← addObject (h.table.covered.addr o.start) o.words
        planFromBottom i
        planAround i (h.table.covered.addr (z.keep * h.table.geometry.regionWords))) h fun _ h' =>
      ∃ objs s', z.EndFilled h.table.geometry.regionWords (ObjectModel.minimumWords h.image)
        (os.reverse ++ others) objs
        ∧ h'.bitmap.Marks objs
        ∧ h'.spaces[i]? = some s'
        ∧ s'.densePrefix = h.table.covered.addr (z.keep * h.table.geometry.regionWords)
        ∧ s'.newTop = h.table.covered.addr (z.keep * h.table.geometry.regionWords
          + (liveBelow objs z.top - liveBelow objs (z.keep * h.table.geometry.regionWords)))
        ∧ s'.densePrefix ≤ s'.newTop ∧ s'.newTop ≤ s'.top ∧ s'.top = s.top
        ∧ Compacts objs (z.forward h.table.geometry.regionWords objs)
        ∧ ∀ t w, h'.table.Touched h'.bitmap objs z t → z.first * h.table.geometry.regionWords ≤ w →
          w < z.last * h.table.geometry.regionWords → Live objs w →
          ∃ t', t.forward h'.bitmap (h.table.covered.addr w)
            = .ok (h.table.covered.addr (if w < z.keep * h.table.geometry.regionWords then w
                else z.keep * h.table.geometry.regionWords
                  + (liveBelow objs w - liveBelow objs (z.keep * h.table.geometry.regionWords))),
              t') := by
  have hlt := (List.getElem?_eq_some_iff.1 hspace).1
  have hbounds := bounds_added hothers hholds
  refine (addObjects_blank_runs hc hz hothers hblank hos hholds).bind fun _ h₁ hadd => ?_
  obtain ⟨hadded, haccounted⟩ := hadd
  have hcovered₁ := hadded.shape.covered
  have hgeometry₁ := hadded.shape.geometry
  have hplan := planSpaceAround_runs (h := h₁) (i := i) (s := s) (z := z) hadded.consistent
    (by rw [hadded.spaces]; exact hspace) (by rw [hcovered₁, hgeometry₁]; exact hs)
    (by rw [hcovered₁, hgeometry₁]; exact hz) (by rw [hgeometry₁]; exact hbounds)
    haccounted (fun _ => by rw [hgeometry₁]; exact htop)
    (by rw [hgeometry₁, hadded.image]; exact hfits) (by rw [hadded.image]; exact hfill)
  rw [hcovered₁, hgeometry₁] at hplan
  refine hplan.mono fun _ h' hplanned => ?_
  obtain ⟨objs, hplanned⟩ := hplanned
  obtain ⟨starts, hspaces, _⟩ := hplanned.spaces
  have hfilled := hplanned.filled
  have hcovered := hplanned.shape.covered.trans hcovered₁
  have hgeometry := hplanned.shape.geometry.trans hgeometry₁
  rw [hcovered₁, hgeometry₁, hadded.spaces] at hspaces
  rw [hgeometry₁, hadded.image] at hfilled
  have hbounds' := hfilled.bounds hbounds
  have hlow := z.le_packed h.table.geometry.regionWords objs z.top
  have hhigh : z.packed h.table.geometry.regionWords objs z.top ≤ z.top :=
    Zone.packed_le hz.keep_le_top
  refine ⟨objs, { s with
      newTop := h.table.covered.addr (z.packed h.table.geometry.regionWords objs z.top)
      densePrefix := h.table.covered.addr (z.keep * h.table.geometry.regionWords)
      starts }, hfilled, hplanned.consistent.marks,
      by rw [hspaces]; exact List.getElem?_set_self hlt, rfl, rfl,
    (Extent.addr_le_addr ..).2 hlow, ?_, rfl, z.compacts _ objs, fun t w htouched h1 h2 hw => ?_⟩
  · dsimp only
    rw [hs.top]
    exact (Extent.addr_le_addr ..).2 hhigh
  · have hz' : z.Ordered h'.table.geometry.regionWords h'.table.covered.words := by
      rw [hcovered, hgeometry]
      exact hz
    have hbitmap := hplanned.consistent.bitmap_covered
    have hrefilled :=
      hplanned.planned.refilled_of_touched hplanned.consistent.laid
        hplanned.consistent.marks hbitmap hz'
      (by rw [hgeometry]; exact hbounds') htouched
    obtain ⟨t', heq, _⟩ :=
      hplanned.planned.forward_eq hplanned.consistent.laid hplanned.consistent.marks hbitmap hz'
      (by rw [hgeometry]; exact hbounds') hrefilled (by rw [hgeometry]; exact h1)
        (by rw [hgeometry]; exact h2) hw
    rw [hcovered, hgeometry] at heq
    exact ⟨t', heq⟩

/-- A heap of one space over four regions of four words, in which nothing is marked. -/
def fourRegions : Heap MemoryImage :=
  let covered : Extent := ⟨64, 128⟩
  let geometry := Geometry.ofLogs 2 1 4 (by decide)
  { covered
    geometry
    bitmap := .unmarked covered
    table := .empty covered geometry
    spaces := [{ Space.ofConfig (.old "old" 64 192) with top := 176 }]
    image := .zeroed 64 128 ⟨56, 3⟩ }

/-- Two objects with dead space across the boundary between them, which is filled. -/
theorem planned_forwarding_fourRegions :
    (8 : ℕ) < 14 ∧ Separate [⟨1, 3⟩, ⟨10, 2⟩] ∧ Runs (do
        [(⟨1, 3⟩ : Span), ⟨10, 2⟩].forM fun o =>
          do let _ ← addObject (fourRegions.table.covered.addr o.start) o.words
        planFromBottom 0
        planAround 0 (fourRegions.table.covered.addr (2 * 4))) fourRegions fun _ h' =>
      ∃ objs s', Zone.EndFilled ⟨0, 2, 4, 14⟩ 4 1 [⟨10, 2⟩, ⟨1, 3⟩] objs ∧ h'.spaces[0]? = some s'
        ∧ s'.newTop = 64 + 8 * (8 + (liveBelow objs 14 - liveBelow objs 8)) ∧ s'.newTop ≤ 176 := by
  have hsep : Separate [⟨1, 3⟩, ⟨10, 2⟩] := ⟨by decide, by simp [Span.Apart, Span.past]⟩
  have hc : fourRegions.Consistent [] :=
    ⟨RegionTable.laid_empty (by decide) (by decide) (by decide) (by decide),
      MarkBitmap.marks_unmarked (by decide), rfl, rfl, rfl⟩
  have hplan := planned_forwarding (z := ⟨0, 2, 4, 14⟩) (i := 0) hc rfl
    ⟨rfl, rfl, rfl, rfl, by decide, by decide⟩
      ⟨by decide, by decide, by decide, by decide, by decide⟩ (by decide)
    (by simp) (fun r _ _ => Table.get_fresh ..) hsep (by simp [Zone.Holds, Span.past, fourRegions])
    (fun _ => fillerFits_one (by decide) (by decide))
    (fun addr words _ hpos => ⟨_, by
      simp only [ObjectModel.fillDead, MemoryImage.fillDead, if_neg (Nat.ne_of_gt hpos)]
      rfl⟩)
  refine ⟨by decide, hsep, hplan.mono fun _ h' => ?_⟩
  rintro ⟨objs, s', hfilled, _, hspace, _, hnewTop, _, hle, htop, _⟩
  refine ⟨objs, s', hfilled, hspace, ?_, hle.trans (le_of_eq htop)⟩
  rw [hnewTop, Extent.addr_eq]
  rfl

end Heap

end MarkCompact
