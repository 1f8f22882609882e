import MarkCompact.Proofs.Decisions

/-!
# Planning all spaces

A heap in which the live objects are marked, and nothing else is recorded, is planned space by
space.  Whatever dense prefixes are chosen, in the end the table holds the plan of every zone, with
nothing of it carried out, and the objects are those that were marked and the fillers that close
dense prefixes.

The prefix of a space is chosen in a cycle; `planSpaceBy` plans a space around any prefix.

Main statements: `addLiveObjects_runs`, `PlannedAs.aroundPrefix_leads` (the prefix that is chosen)
and `planSpaceBy_leads` (one space).
-/

namespace MarkCompact

variable {objs os : List Span} {o : Span} {z : Zone} {W r : ℕ}

/-! ## Live objects of a space -/

/-- A chain through the zone up to its top meets all the objects in it. -/
lemma Chain.agree {c : ℕ} (h : Chain objs (z.first * W) os c) (hdead : Dead objs c z.top)
    (hsep : Separate objs) (hbounds : z.Bounds W objs) : z.Agree W (os.reverse ++ []) objs := by
  intro o h1 h2
  rw [List.append_nil, List.mem_reverse]
  refine ⟨h.mem_of_mem, fun ho => ?_⟩
  have hpos := hsep.start_lt_past ho
  rcases hbounds o ho with hholds | hmiss | hmiss
  · obtain ⟨g1, g2⟩ := hholds
    have hcov := Span.covers_start (hsep.words_pos o ho)
    have hlt : o.start < c := by
      by_contra hge
      exact hdead o.start (not_lt.1 hge) (by omega) (live_of_mem ho hcov)
    obtain ⟨o', ho', hcov'⟩ := (h.live_iff g1 hlt).2 (live_of_mem ho hcov)
    rwa [hsep.eq_of_covers ho (h.mem_of_mem ho') hcov hcov']
  · omega
  · omega

/-- Dead space crosses some boundary in the zone and has no room for a filler. -/
def Zone.Misfit (z : Zone) (W minimum : ℕ) (objs : List Span) : Prop :=
  ∃ k, z.first < k ∧ k * W < z.top ∧ ¬FillerFits objs (z.first * W) (k * W) z.top minimum

/-- The space after its live objects have been counted. -/
def Space.counting (s : Space) (held : List Span) : Space :=
  { s with liveWords := (held.map Span.words).sum, liveObjects := held.length }

lemma Space.Over.counting {s : Space} {covered : Extent} (hs : s.Over covered W z)
    (held : List Span) (k : ℕ) :
    (s.counting held).Over covered W { z with keep := k } :=
  ⟨hs.bottom, hs.limit, hs.top, hs.starts⟩

namespace Heap

variable {μ : Type} {h : Heap μ} {s : Space} {i : ℕ}

/-- The live objects of a space are accounted in its regions. -/
theorem addLiveObjects_runs (hc : h.Consistent objs) (hspace : h.spaces[i]? = some s)
    (hs : s.Over h.table.covered h.table.geometry.regionWords z)
    (hz : z.Ordered h.table.geometry.regionWords h.table.covered.words)
    (hbounds : z.Bounds h.table.geometry.regionWords objs)
    (hblank : ∀ r, z.first ≤ r → r < z.last → h.table.regions.get r = {}) :
    Runs (addLiveObjects i) h fun _ h' => ∃ t,
      h' = { h with
          table := t
          spaces := h.spaces.set i (s.counting (z.held h.table.geometry.regionWords objs)) }
        ∧ h.table.SameShape t ∧ t.blocks = h.table.blocks ∧ t.Accounted objs z.first z.last
        ∧ ∀ r, ¬(z.first ≤ r ∧ r < z.last) → t.regions.get r = h.table.regions.get r := by
  have hsep := hc.marks.separate
  have htop := hz.top_le_last
  have hlast := hz.last_le
  obtain ⟨os, c, resume, heq, hchain, hdead, hlt⟩ :=
    hc.marks.liveObjects_eq (hbounds.boundary_first hz) hz.first_le_top
    (by rw [hc.words_eq]; omega)
  rw [hc.bitmap_covered, ← hs.bottom, ← hs.top] at heq
  have hholds : ∀ o ∈ os, z.Holds h.table.geometry.regionWords o := fun o ho => by
    have hstart := (hchain.bounds hsep ho).1
    have hpos := hsep.start_lt_past (hchain.mem_of_mem ho)
    have := hlt o ho
    rcases hbounds o (hchain.mem_of_mem ho) with hholds | hmiss | hmiss
    · exact hholds
    · omega
    · omega
  have hperm : os.Perm (z.held h.table.geometry.regionWords objs) := by
    refine (List.perm_ext_iff_of_nodup (hchain.separate hsep).nodup (hsep.nodup.filter _)).2
      fun o => ?_
    refine ⟨fun ho => Zone.mem_held.2 ⟨hchain.mem_of_mem ho, hholds o ho⟩, fun ho => ?_⟩
    obtain ⟨hin, h1, h2⟩ := Zone.mem_held.1 ho
    have hpos := hsep.start_lt_past hin
    have hmem := (hchain.agree hdead hsep hbounds o (by omega) (by omega)).2 hin
    rwa [List.append_nil, List.mem_reverse] at hmem
  have hsum : (os.map (Span.run · h.table.covered)).foldl (fun words o => words + o.words) 0
      = ((z.held h.table.geometry.regionWords objs).map Span.words).sum := by
    rw [List.foldl_map, ← (hperm.map Span.words).sum_nat, List.sum_eq_foldl, List.foldl_map]
    rfl
  have hlength : (os.map (Span.run · h.table.covered)).length
      = (z.held h.table.geometry.regionWords objs).length := by
    rw [List.length_map, hperm.length_eq]
  have hseparate : Separate (os.reverse ++ []) := by
    rw [List.append_nil]
    exact (hchain.separate hsep).perm os.reverse_perm.symm
  obtain ⟨t, htable, hshape, hblocks, hget⟩ := accountObjects_eq (t := h.table) hc.laid hseparate
    (fun o ho => by rw [← hc.words_eq]; exact hc.marks.past_le o (hchain.mem_of_mem ho))
    fun o ho => RegionTable.accounts_of_blank (by simp) hblank hz (hholds o ho)
      (hsep.start_lt_past (hchain.mem_of_mem ho))
  have hacc := RegionTable.accounted_of_blank hc.laid hshape hseparate (by simp) hblank hget
  simp only [addLiveObjects, runs_bind, runs_get, space_eq hspace, runs_check_ok, heq]
  refine (runs_onTable htable).2 ((runs_onSpace (by exact hspace) (by rfl)).2 ?_)
  rw [hsum, hlength]
  refine ⟨t, rfl, hshape, hblocks, ?_, fun r hout => ?_⟩
  · exact hacc.congr (by rw [hshape.geometry]; exact hchain.agree hdead hsep hbounds) hseparate hsep
      rfl fun _ _ _ => rfl
  · rw [hget]
    exact Region.accountAll_of_apart fun o ho =>
      ⟨hsep.start_lt_past (hchain.mem_of_mem ho), (hholds o ho).out hz hout⟩

/-! ## Block offsets of a space -/

/-- Recording the block offsets of some regions whose partial objects are known. -/
lemma fillBlocksFrom_eq {t : RegionTable} {m : MarkBitmap} {count : ℕ} (ht : t.Laid)
    (hm : m.Marks objs) (hcovered : m.covered = t.covered)
    (hpartial : ∀ x, r ≤ x → x < r + count → x < t.geometry.regionCount
      ∧ (t.regions.get x).partialWords = partialOf objs t.geometry.regionWords x) :
    ∃ t', fillBlocksFrom m count r t = .ok t' ∧ RegionTable.Refilled objs t t'
      ∧ ∀ q, ¬(r ≤ q ∧ q < r + count) → t'.regions.get q = t.regions.get q := by
  induction count generalizing r t with
  | zero => exact ⟨t, rfl, .refl objs t, fun _ _ => rfl⟩
  | succ count ih =>
    obtain ⟨hr, hsize⟩ := hpartial r le_rfl (by omega)
    have hrest : ∀ t₁, RegionTable.Refilled objs t t₁ →
        (∀ q, q ≠ r → t₁.regions.get q = t.regions.get q) →
        ∃ t', fillBlocksFrom m count (r + 1) t₁ = .ok t' ∧ RegionTable.Refilled objs t t'
          ∧ ∀ q, ¬(r ≤ q ∧ q < r + (count + 1)) → t'.regions.get q = t.regions.get q := by
      intro t₁ hrefilled hother
      obtain ⟨t', heq, hrefilled', hother'⟩ := ih (r := r + 1) (hrefilled.shape.laid ht)
        (hcovered.trans hrefilled.shape.covered.symm) fun x h1 h2 => by
          rw [hrefilled.shape.geometry, hother x (by omega)]
          exact hpartial x (by omega) (by omega)
      refine ⟨t', heq, hrefilled.trans hrefilled', fun q hq => ?_⟩
      rw [hother' q (by omega), hother q (by omega)]
    rw [fillBlocksFrom, RegionTable.Laid.region_eq hr, ok_bind]
    dsimp only
    split
    · obtain ⟨t₁, heq, hrefilled, _, _, hother⟩ := RegionTable.fillBlocks_eq ht hm hcovered hr hsize
      rw [heq, ok_bind]
      exact hrest t₁ hrefilled hother
    · exact hrest t (.refl objs t) fun _ _ => rfl

variable [ObjectModel μ]

/-! ## One space -/

/-- The heap `h'` is `h` with the live objects of space `i` accounted, the space planned as the
zone, and the objects `objs'`. -/
structure SpacePlanned (h h' : Heap μ) (i : ℕ) (s : Space) (objs objs' : List Span)
    (z : Zone) : Prop where
  covered : h'.covered = h.covered
  geometry : h'.geometry = h.geometry
  updates : h'.updates = h.updates
  consistent : h'.Consistent objs'
  ready : h'.table.Ready objs' z
  untouched : h'.table.Untouched objs' z
  /-- The tables differ in the regions of the zone, and in block offsets that are right. -/
  refilled : ∃ t, h.table.SameShape t ∧ t.blocks = h.table.blocks
    ∧ RegionTable.Refilled objs' t h'.table
    ∧ ∀ r, r < h.table.geometry.regionCount → ¬(z.first ≤ r ∧ r < z.last) →
      t.regions.get r = h.table.regions.get r
  other : ∀ r, r < h.table.geometry.regionCount → ¬(z.first ≤ r ∧ r < z.last) →
    h'.table.regions.get r = h.table.regions.get r
  filled : z.EndFilled h.table.geometry.regionWords (ObjectModel.minimumWords h.image) objs objs'
  crossed : objs' ≠ objs → CrossedByDead objs (z.keep * h.table.geometry.regionWords)
  keep_lt : z.first < z.keep → z.keep * h.table.geometry.regionWords < z.top
  image : objs' = objs ∧ h'.image = h.image
    ∨ ∃ o, objs' = o :: objs
      ∧ ObjectModel.fillDead h.image (h.table.covered.addr o.start) o.words = .ok h'.image
  spaces : ∃ s', h'.spaces = h.spaces.set i s'
    ∧ s'.Matches h.table.covered h.table.geometry.regionWords objs' z
    ∧ s.Tallied s' h.table.geometry.regionWords objs z ∧ ∀ must may : ℕ → Prop,
      s.starts.Between h.table.covered must may → (∀ o ∈ objs', o ∉ objs → may o.start) →
      s'.starts.Between h.table.covered must may

namespace SpacePlanned

variable {h' : Heap μ} {objs' : List Span}

lemma sameShape (hp : h.SpacePlanned h' i s objs objs' z) : h.table.SameShape h'.table := by
  obtain ⟨t, hshape, _, hrefilled, _⟩ := hp.refilled
  exact hshape.trans hrefilled.shape

/-- Regions outside of the zone stay as they are. -/
lemma region_eq (hp : h.SpacePlanned h' i s objs objs' z) (ht : h.table.Laid)
    (hout : ¬(z.first ≤ r ∧ r < z.last)) :
    h'.table.regions.get r = h.table.regions.get r := by
  by_cases hlt : r < h.table.geometry.regionCount
  · exact hp.other r hlt hout
  · rw [ht.region_blank (not_lt.1 hlt),
      hp.consistent.laid.region_blank (by rw [hp.sameShape.geometry]; omega)]

end SpacePlanned

lemma PlannedAs.withLog {h' : Heap μ} {objs' : List Span} (h'' : h.PlannedAs h' i s objs objs' z)
    (log : List LogRecord) :
    h.PlannedAs { h' with log } i s objs objs' z :=
  { h'' with consistent := h''.consistent.withLog log }

/-- Whatever dense prefix is chosen for a space that is planned into itself, the space is planned
around it. -/
theorem PlannedAs.aroundPrefix_leads {h₁ : Heap μ} (hplan : h.PlannedAs h₁ i s objs objs z)
    (hkeep : z.keep = z.first) (hspace : h.spaces[i]? = some s)
    (hs : s.Over h.table.covered h.table.geometry.regionWords z)
    (hz : z.Ordered h.table.geometry.regionWords h.table.covered.words)
    (hbounds : z.Bounds h.table.geometry.regionWords objs)
    (hfill : ∀ addr words, ObjectModel.minimumWords h.image ≤ words → 0 < words →
      ∃ image, ObjectModel.fillDead h.image addr words = .ok image) (limiter : Limiter)
    (maximum : Bool) :
    Leads (fun _ => z.Misfit h.table.geometry.regionWords (ObjectModel.minimumWords h.image) objs)
      (planAroundPrefix i limiter maximum) h₁ fun _ h' => ∃ k objs',
      ({ z with keep := k } : Zone).Ordered h.table.geometry.regionWords h.table.covered.words
        ∧ (z.first < k → k * h.table.geometry.regionWords < z.top)
        ∧ k = z.chosen h.table.covered h.table.geometry objs s.deadRatio limiter maximum
        ∧ h.PlannedAs h' i s objs objs' { z with keep := k } := by
  have hlt := (List.getElem?_eq_some_iff.1 hspace).1
  have hW := h.table.geometry.regionWords_pos
  obtain ⟨first, keep, last, top⟩ := z
  obtain rfl : keep = first := hkeep
  obtain ⟨starts, hspaces, hstarts, hbetween⟩ := hplan.spaces
  have hcovered := hplan.shape.covered
  have hgeometry := hplan.shape.geometry
  have hspace₁ : h₁.spaces[i]? = some { s with
      newTop := h.table.covered.addr
        (Zone.packed ⟨keep, keep, last, top⟩ h.table.geometry.regionWords objs top)
      densePrefix := h.table.covered.addr (keep * h.table.geometry.regionWords)
      starts } := by
    rw [hspaces]
    exact List.getElem?_set_self hlt
  have hs₁ := hs.withStarts hstarts
  simp only [planAroundPrefix, leads_bind, leads_get, space_eq hspace₁, leads_check_ok]
  have hover₁ : Space.Over { s with
      newTop := h.table.covered.addr
        (Zone.packed ⟨keep, keep, last, top⟩ h.table.geometry.regionWords objs top)
      densePrefix := h.table.covered.addr (keep * h.table.geometry.regionWords)
      starts } h₁.table.covered h₁.table.geometry.regionWords ⟨keep, keep, last, top⟩ := by
    rw [hcovered, hgeometry]
    exact ⟨hs₁.bottom, hs₁.limit, hs₁.top, hs₁.starts⟩
  have hz₁ : Zone.Ordered ⟨keep, keep, last, top⟩ h₁.table.geometry.regionWords
      h₁.table.covered.words := by
    rw [hcovered, hgeometry]
    exact hz
  -- Whatever comes of comparing the new top with the bottom, the prefix is the one that is chosen
  -- for the zone.
  have hdecided : ∀ k,
      (if h.table.covered.addr
          (Zone.packed ⟨keep, keep, last, top⟩ h.table.geometry.regionWords objs top) = s.bottom
        ∨ maximum then k = keep
      else ∃ choice, h₁.table.choosePrefix { s with
          newTop := h.table.covered.addr
            (Zone.packed ⟨keep, keep, last, top⟩ h.table.geometry.regionWords objs top)
          densePrefix := h.table.covered.addr (keep * h.table.geometry.regionWords)
          starts } limiter = .ok choice ∧ choice.region = k) →
      k = Zone.chosen ⟨keep, keep, last,
        top⟩ h.table.covered h.table.geometry objs s.deadRatio limiter maximum := fun k hk => by
    have heq := Zone.chosen_eq hplan.consistent.laid hplan.planned (.refl _ _ objs) hz₁ rfl hover₁
      (by rw [hcovered, hgeometry]; rfl) hk
    rwa [hcovered, hgeometry] at heq
  split
  · have hchosen :=
      computeDensePrefix_runs (z := ⟨keep, keep, last, top⟩) hplan.consistent hspace₁ hover₁ hz₁
        rfl hplan.planned
      (by rw [hcovered, hgeometry]; rfl) limiter maximum
    refine hchosen.bind_leads fun boundary h₂ => ?_
    rintro ⟨k, log, rfl, rfl, h1, h2, hk⟩
    rw [hcovered, hgeometry, leads_bind]
    rw [hgeometry] at h2
    have hzk : (⟨keep, k, last, top⟩ : Zone).Ordered h.table.geometry.regionWords
        h.table.covered.words := hz.withKeep h1 h2
    have haround := (hplan.withLog log).around_leads (z := ⟨keep, k, last, top⟩) hspace
      ⟨hs.bottom, hs.limit, hs.top, hs.starts⟩ hzk hbounds h2 hfill
    refine (haround.widen fun _ hmisfit => ⟨k, hmisfit.1, h2 hmisfit.1, hmisfit.2⟩).mono
      fun _ h₃ => ?_
    rintro ⟨objs', hplanned⟩
    obtain ⟨_, hspaces', _⟩ := hplanned.spaces
    rw [leads_bind, leads_get, leads_bind,
      space_eq (by rw [hspaces']; exact List.getElem?_set_self hlt), leads_check_ok, leads_report]
    exact ⟨k, objs', hzk, h2, hdecided k hk, hplanned.withLog _⟩
  case isFalse hempty =>
    rw [leads_pure]
    exact ⟨keep, objs, hz, fun hlt' => absurd hlt' (lt_irrefl _),
      hdecided keep (by rw [if_pos (Or.inl (not_not.1 hempty))]), hplan⟩

/-- The block offsets of a planned space are recorded. -/
lemma PlannedAs.fillBlocks_runs {h₁ : Heap μ} {objs' : List Span}
    (hplan : h.PlannedAs h₁ i s objs objs' z) (hc : h.Consistent objs)
    (hspace : h.spaces[i]? = some s) (hs : s.Over h.table.covered h.table.geometry.regionWords z)
    (hz : z.Ordered h.table.geometry.regionWords h.table.covered.words) :
    Runs (fillSpaceBlocks i) h₁ fun _ h' => ∃ t, h' = { h₁ with table := t }
      ∧ RegionTable.Refilled objs' h₁.table t
      ∧ ∀ r, ¬(z.first ≤ r ∧ r < z.last) → t.regions.get r = h₁.table.regions.get r := by
  have hW := h.table.geometry.regionWords_pos
  have hlt := (List.getElem?_eq_some_iff.1 hspace).1
  have hkeep := hz.keep_le_last hW
  have hkeepWords := Nat.mul_le_mul_right h.table.geometry.regionWords hkeep
  have hfirst := hz.first_le_keep
  have hlast := hz.last_le
  have htop := hz.top_le_last
  obtain ⟨starts, hspaces, hstarts, hbetween⟩ := hplan.spaces
  have hlaid := hplan.consistent.laid
  have hcovered := hplan.shape.covered
  have hgeometry := hplan.shape.geometry
  have hupTo : upTo h.table.geometry.regionWords z.top ≤ z.last := (upTo_le_iff hW).2 htop
  have hregion :=
    hlaid.regionOf_addr (i := z.keep * h.table.geometry.regionWords) (by rw [hcovered]; omega)
  have hregionUpTo := hlaid.regionUpTo_addr (i := z.top) (by rw [hcovered]; omega)
  rw [hcovered, hgeometry] at hregion hregionUpTo
  rw [Nat.mul_div_cancel _ hW] at hregion
  have hcount := hc.laid.covered_words
  obtain ⟨t, htable, hrefilled, hother⟩ :=
    fillBlocksFrom_eq (r := z.keep) hlaid hplan.consistent.marks
    hplan.consistent.bitmap_covered
      fun x h1 (h2 : x < z.keep + (upTo h.table.geometry.regionWords z.top - z.keep)) => by
      have hx : x < z.last := by omega
      refine ⟨?_, hplan.planned.partial_eq (by omega) hx⟩
      rw [hgeometry]
      exact lt_of_lt_of_le hx (Nat.le_of_mul_le_mul_right (hcount ▸ hlast) hW)
  simp only [fillSpaceBlocks, runs_bind, runs_get]
  rw [space_eq (by rw [hspaces]; exact List.getElem?_set_self hlt), runs_check_ok, hregion,
    runs_check_ok]
  dsimp only
  rw [hs.top, hregionUpTo, runs_check_ok, runs_onTable htable]
  exact ⟨t, rfl, hrefilled, fun r hr => hother r (by omega)⟩

/-- Plans space `i` around the dense prefix that `around` settles on. -/
def planSpaceBy (around : HeapAction μ Unit) (i : ℕ) : HeapAction μ Unit := do
  addLiveObjects i
  planFromBottom i
  around
  fillSpaceBlocks i

/-- If space `i` has been planned into itself as the zone, then `around` plans it around a prefix
that satisfies `settled`. -/
def PlansAround (may : Fault → Prop) (around : HeapAction μ Unit) (h : Heap μ) (i : ℕ) (s : Space)
    (objs : List Span) (z : Zone) (settled : ℕ → Prop) : Prop :=
  ∀ (h₀ : Heap μ) (s₀ : Space) (h₁ : Heap μ), h₀.table.covered = h.table.covered →
    h₀.table.geometry = h.table.geometry → h₀.image = h.image →
    h₀.spaces[i]? = some s₀ → s₀.Over h.table.covered h.table.geometry.regionWords z →
    s₀.deadRatio = s.deadRatio →
    h₀.PlannedAs h₁ i s₀ objs objs z → Leads may around h₁ fun _ h' => ∃ k objs',
      ({ z with keep := k } : Zone).Ordered h.table.geometry.regionWords h.table.covered.words
        ∧ (z.first < k → k * h.table.geometry.regionWords < z.top) ∧ settled k
        ∧ h₀.PlannedAs h' i s₀ objs objs' { z with keep := k }

lemma PlansAround.widen {may may' : Fault → Prop} {around : HeapAction μ Unit} {settled : ℕ → Prop}
    (haround : PlansAround may around h i s objs z settled)
    (hmay : ∀ fault, may fault → may' fault) :
    PlansAround may' around h i s objs z settled :=
  fun h₀ s₀ h₁ hcovered hgeometry himage hspace hs hratio hplan =>
  (haround h₀ s₀ h₁ hcovered hgeometry himage hspace hs hratio hplan).widen hmay

section

variable (hz : z.Ordered h.table.geometry.regionWords h.table.covered.words)
  (hkeep : z.keep = z.first) (hbounds : z.Bounds h.table.geometry.regionWords objs)
  (hfill : ∀ addr words, ObjectModel.minimumWords h.image ≤ words → 0 < words →
    ∃ image, ObjectModel.fillDead h.image addr words = .ok image)
include hz hkeep hbounds hfill

/-- In a cycle the prefix is chosen. -/
lemma plansAround_prefix (s : Space) (limiter : Limiter) (maximum : Bool) :
    PlansAround (fun _ => z.Misfit h.table.geometry.regionWords
      (ObjectModel.minimumWords h.image) objs)
      (planAroundPrefix i limiter maximum) h i s objs z fun k =>
        k = z.chosen h.table.covered h.table.geometry objs s.deadRatio limiter maximum := by
  intro h₀ s₀ h₁ hcovered hgeometry himage hspace hs hratio hplan
  rw [← hcovered, ← hgeometry] at hz hs
  rw [← hgeometry] at hbounds
  rw [← himage] at hfill
  rw [← hcovered, ← hgeometry, ← himage, ← hratio]
  exact hplan.aroundPrefix_leads hkeep hspace hs hz hbounds hfill limiter maximum

/-- The space is planned around any boundary in it. -/
lemma plansAround_boundary (s : Space) {k : ℕ} (hk : z.first ≤ k)
    (htop : z.first < k → k * h.table.geometry.regionWords < z.top) :
    PlansAround (fun _ => z.Misfit h.table.geometry.regionWords
      (ObjectModel.minimumWords h.image) objs)
      (planAround i (h.table.covered.addr (k * h.table.geometry.regionWords))) h i s objs z
        (· = k) := by
  intro h₀ s₀ h₁ hcovered hgeometry himage hspace hs _ hplan
  rw [← hcovered, ← hgeometry] at hz hs
  rw [← hgeometry] at hbounds htop
  rw [← himage] at hfill
  rw [← hcovered, ← hgeometry, ← himage]
  obtain ⟨first, keep, last, top⟩ := z
  obtain rfl : keep = first := hkeep
  have hzk : (⟨keep, k, last, top⟩ : Zone).Ordered h₀.table.geometry.regionWords
      h₀.table.covered.words := hz.withKeep hk htop
  have haround := hplan.around_leads (z := ⟨keep, k, last, top⟩) hspace
    ⟨hs.bottom, hs.limit, hs.top, hs.starts⟩ hzk hbounds
    htop hfill
  refine (haround.widen fun _ hmisfit => ⟨k, hmisfit.1, htop hmisfit.1, hmisfit.2⟩).mono
    fun _ h' => ?_
  rintro ⟨objs', hplanned⟩
  exact ⟨k, objs', hzk, htop, rfl, hplanned⟩

end

/-- A space whose objects are accounted, which is planned around a prefix, and whose block offsets
are recorded, is planned. -/
lemma PlannedAs.spacePlanned {h₃ : Heap μ} {t t' : RegionTable} {objs' : List Span} {k : ℕ}
    (hs : s.Over h.table.covered h.table.geometry.regionWords z)
    (hzk : ({ z with keep := k } : Zone).Ordered h.table.geometry.regionWords h.table.covered.words)
    (hbelow : z.first < k → k * h.table.geometry.regionWords < z.top)
    (hshape : h.table.SameShape t) (hblocks : t.blocks = h.table.blocks)
    (hother : ∀ r, ¬(z.first ≤ r ∧ r < z.last) → t.regions.get r = h.table.regions.get r)
    (hplanned : ({ h with
        table := t, spaces := h.spaces.set i
          (s.counting (z.held h.table.geometry.regionWords objs)) } : Heap μ).PlannedAs
      h₃ i (s.counting (z.held h.table.geometry.regionWords objs)) objs objs' { z with keep := k })
    (hrefilled : RegionTable.Refilled objs' h₃.table t')
    (hother' : ∀ r, ¬(z.first ≤ r ∧ r < z.last) → t'.regions.get r = h₃.table.regions.get r) :
    h.SpacePlanned { h₃ with table := t' } i s objs objs' { z with keep := k } := by
  have hcovered := hshape.covered
  have hgeometry := hshape.geometry
  obtain ⟨starts, hspaces, hstarts, hbetween⟩ := hplanned.spaces
  have hready :=
    hplanned.planned.ready
      (by rw [hplanned.shape.covered, hplanned.shape.geometry, hcovered, hgeometry]; exact hzk)
  have hfilled := hplanned.filled
  have himage := hplanned.image
  have hcrossed := hplanned.crossed
  dsimp only at hspaces hfilled hcrossed himage hbetween
  rw [hcovered, hgeometry] at hspaces
  rw [hgeometry] at hfilled hcrossed
  rw [hcovered] at himage hbetween
  have hregions : ∀ r, r < h.table.geometry.regionCount → ¬(z.first ≤ r ∧ r < z.last) →
      h₃.table.regions.get r = h.table.regions.get r := fun r hr hout => by
    rw [hplanned.other r (by dsimp only; rw [hgeometry]; exact hr) hout]
    exact hother r hout
  exact {
    covered := hplanned.covered
    geometry := hplanned.geometry
    updates := hplanned.updates
    consistent := hplanned.consistent.of_sameShape rfl rfl rfl hrefilled.shape
    ready := hready.advance hrefilled.advances
    untouched := hplanned.planned.untouched.refilled hrefilled
    refilled :=
      ⟨h₃.table, hshape.trans hplanned.shape, hplanned.blocks.trans hblocks, hrefilled, hregions⟩
    other := fun r hr hout => by
      show t'.regions.get r = _
      rw [hother' r hout, hregions r hr hout]
    filled := hfilled
    crossed := hcrossed
    keep_lt := hbelow
    image := himage
    spaces := ⟨{ s.counting (z.held h.table.geometry.regionWords objs) with
        newTop := h.table.covered.addr
          (Zone.packed { z with keep := k } h.table.geometry.regionWords objs' z.top)
        densePrefix := h.table.covered.addr (k * h.table.geometry.regionWords)
        starts },
      by rw [show ({ h₃ with table := t' } : Heap μ).spaces = h₃.spaces from rfl, hspaces,
          List.set_set],
      ⟨⟨hs.bottom, hs.limit, hs.top, (Space.Over.withStarts hs hstarts).starts⟩, rfl, rfl⟩,
      ⟨rfl, rfl, rfl, rfl⟩, hbetween⟩ }

/-- A space is planned, whatever dense prefix it is planned around. -/
theorem planSpaceBy_leads {may : Fault → Prop} {around : HeapAction μ Unit} {settled : ℕ → Prop}
    (hc : h.Consistent objs) (hspace : h.spaces[i]? = some s)
    (hs : s.Over h.table.covered h.table.geometry.regionWords z)
    (hz : z.Ordered h.table.geometry.regionWords h.table.covered.words) (hkeep : z.keep = z.first)
    (hbounds : z.Bounds h.table.geometry.regionWords objs)
    (hblank : ∀ r, z.first ≤ r → r < z.last → h.table.regions.get r = {})
    (haround : PlansAround may around h i s objs z settled) :
    Leads may (planSpaceBy around i) h fun _ h' => ∃ k objs',
      ({ z with keep := k } : Zone).Ordered h.table.geometry.regionWords h.table.covered.words
        ∧ settled k ∧ h.SpacePlanned h' i s objs objs' { z with keep := k } := by
  have hlt := (List.getElem?_eq_some_iff.1 hspace).1
  rw [planSpaceBy]
  refine (addLiveObjects_runs hc hspace hs hz hbounds hblank).bind_leads fun _ h₁ => ?_
  rintro ⟨t, rfl, hshape, hblocks, hacc, hother⟩
  have hcovered := hshape.covered
  have hgeometry := hshape.geometry
  have hspace₁ :=
    List.getElem?_set_self (a := s.counting (z.held h.table.geometry.regionWords objs)) hlt
  have hc₁ : ({ h with
      table := t, spaces := h.spaces.set i
        (s.counting (z.held h.table.geometry.regionWords objs)) } : Heap μ).Consistent objs :=
    hc.of_sameShape rfl rfl rfl hshape
  have hz₁ : z.Ordered t.geometry.regionWords t.covered.words := by
    rw [hcovered, hgeometry]
    exact hz
  have hover₁ : ∀ k,
      (s.counting (z.held h.table.geometry.regionWords objs)).Over t.covered t.geometry.regionWords
      { z with keep := k } := by
    rw [hcovered, hgeometry]
    exact hs.counting _
  refine (planFromBottom_runs hc₁ hspace₁ (hover₁ z.keep) hz₁ (by rw [hgeometry]; exact hbounds)
    hkeep hacc).bind_leads
    fun _ h₂ hplan => ?_
  have hsettles :=
    haround { h with
      table := t
      spaces := h.spaces.set i (s.counting (z.held h.table.geometry.regionWords objs)) } _
    h₂ hcovered hgeometry rfl hspace₁ (hs.counting _ z.keep) rfl hplan
  refine leads_bind.2 (hsettles.mono fun _ h₃ => ?_)
  rintro ⟨k, objs', hzk, hbelow, hk, hplanned⟩
  have hzk₁ : ({ z with keep := k } : Zone).Ordered t.geometry.regionWords t.covered.words := by
    rw [hcovered, hgeometry]
    exact hzk
  refine (hplanned.fillBlocks_runs hc₁ hspace₁ (hover₁ k) hzk₁).leads.mono fun _ h₄ => ?_
  rintro ⟨t', rfl, hrefilled, hother'⟩
  exact ⟨k, objs', hzk, hk,
    hplanned.spacePlanned hs hzk hbelow hshape hblocks hother hrefilled hother'⟩

end Heap

end MarkCompact
