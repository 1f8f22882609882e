import MarkCompact.Proofs.Regions

/-!
# Filling a region, from its first word to its last

A fill begins with the word that goes to the start of the region.  That word may lie inside of an
object, whose first part belongs to an earlier region: then the rest of the object, or as much of it
as fits, comes first.

Main statement: `fillRegion_leads` (filling a free region takes one rest to the next and answers
which regions became free).
-/

namespace MarkCompact

variable {p : Plan} {done : ℕ → Prop} {objs : List Span} {o : Span} {z : Zone}
  {D W c d i k n r s x : ℕ}

/-- The words of an object follow one another where they are packed. -/
lemma Zone.packed_within (hkeep : z.keep * W ≤ s) (ho : o ∈ objs) (hstart : o.start ≤ s)
    (hk : s + k ≤ o.past) :
    z.packed W objs (s + k) = z.packed W objs s + k := by
  have hlive : ∀ w, s ≤ w → w < s + k → Live objs w :=
    fun w h1 h2 => live_of_mem ho ⟨by omega, by omega⟩
  rw [z.packed_add hkeep (Nat.le_add_right s k), liveBelow_of_live (Nat.le_add_right s k) hlive]
  omega

namespace Heap

open Plan

variable {μ : Type} [ObjectModel μ] {K : Upkeep μ p} {h : Heap μ} {f : Filling} {claimed : List ℕ}

/-- The rest of an object that begins in an earlier region is copied, or as much of it as fits. -/
lemma copyPartial_leads (hp : p.Valid) (ht : p.Target done i z D)
    (hfilled : K.FilledTo done D (D * p.regionWords) h) (hf : p.At f i D s (D * p.regionWords) n)
    (hpos : 0 < n) (hn : n ≤ p.regionWords) (ho : o ∈ p.objs) (hcross : o.Crosses s)
    (hforward : p.forward s = D * p.regionWords) :
    Leads K.may (copyPartial f) h fun f' h' => h'.table = h.table
      ∧ K.FilledTo done D (D * p.regionWords + min (o.past - s) n) h'
      ∧ p.At f' i D (s + min (o.past - s) n) (D * p.regionWords + min (o.past - s) n)
        (n - min (o.past - s) n) := by
  obtain ⟨hstart, hpast⟩ := hcross
  have hserves := hfilled.serves
  have hcov : o.Covers s := ⟨hstart.le, hpast⟩
  have hwords : o.past ≤ p.covered.words := by
    have :=
      hserves.consistent.marks.live_lt (live_of_mem ho
        (show o.Covers (o.past - 1) from ⟨by omega, by omega⟩))
    rw [hserves.bitmap_covered] at this
    omega
  have hpart : p.forward o.start < D * p.regionWords := by
    have := hp.forward_add_of_mem (k := s - o.start) ho (le_refl o.start) (by omega)
    rw [show o.start + (s - o.start) = s by omega] at this
    omega
  have hcopy : Leads K.may (copyWords (min (o.past - s) n) f) h fun f' h' => h'.table = h.table
      ∧ K.FilledTo done D (D * p.regionWords + min (o.past - s) n) h'
      ∧ p.At f' i D (s + min (o.past - s) n) (D * p.regionWords + min (o.past - s) n)
        (n - min (o.past - s) n) := by
    obtain ⟨g, hg⟩ := hfilled
    refine (copyInto_leads hp ht hg hf ho hstart.le (show s + min (o.past - s) n ≤ o.past by omega)
      (by omega) hforward le_rfl
      (by omega)).mono fun f' h' => ?_
    rintro ⟨hg', htable, hf'⟩
    exact ⟨htable, hg'.part hp ho hstart.le (by omega) hforward (Or.inl hpart), hf'⟩
  have hend : h.covered.start + h.covered.size = p.covered.addr p.covered.words := by
    have := hserves.loaded.laid.addr_words
    rw [hserves.loaded.covered] at this
    rw [hserves.covered, this]
  have hstop : min (f.source + bytesPerWord * f.remaining) (h.covered.start + h.covered.size)
      = p.covered.addr (min (s + n) p.covered.words) := by
    rw [hf.source, hf.remaining, Extent.addr_add, hend, Extent.min_addr]
  have hlast :=
    hserves.consistent.marks.firstEnd_eq (b := min (s + n) p.covered.words) ho hcov (by omega)
    (by rw [hserves.bitmap_covered]; omega)
  rw [hserves.bitmap_covered, ← hf.source] at hlast
  rw [copyPartial]
  simp only [leads_bind, leads_get]
  rw [hstop, hlast, leads_check_ok]
  by_cases hfits : o.past ≤ s + n
  · have hmin : min (o.past - 1) (min (s + n) p.covered.words) = o.past - 1 := by omega
    have hdelta : Word.delta (p.covered.addr (o.past - 1)) f.source = .ok (o.past - 1 - s) := by
      rw [hf.source]
      exact Extent.delta_addr (by omega)
    rw [hmin, if_pos (by simp only [Extent.addr_lt_addr]; omega), leads_bind, hdelta,
      leads_check_ok, leads_bind, leads_pure, show o.past - 1 - s + 1 = min (o.past - s) n by omega]
    exact hcopy
  · rw [if_neg (by simp only [Extent.addr_lt_addr]; omega), leads_bind, leads_pure, hf.remaining,
      show copyWords n f = copyWords (min (o.past - s) n) f by rw [Nat.min_eq_right (by omega)]]
    exact hcopy

/-- Behind the rest of an object that began in the stretch from `s` on, filling goes on where the
object ends. -/
lemma fillBehind_leads (hp : p.Valid) (ht : p.Target done i z D)
    (hfills : K.Fills done D (z.packed p.regionWords p.objs c) r [] h)
    (hreads : z.Reads p.regionWords p.objs D s r)
    (hlow : D * p.regionWords ≤ z.packed p.regionWords p.objs s) (hboundary : Boundary p.objs c)
    (hsc : s ≤ c) (hc : c ≤ s + p.regionWords) (htop : c ≤ z.top)
    (hlt : z.packed p.regionWords p.objs c < z.fillEnd p.regionWords p.objs D)
    (hf : p.At f i D c (z.packed p.regionWords p.objs c)
      (z.fillEnd p.regionWords p.objs D - z.packed p.regionWords p.objs c)) :
    Leads K.may (do
      let t := (← get).table
      let stop ← check (t.alignDown f.source)
      let tries := t.geometry.regionCount + 1
      if (← check (t.alignDown (p.covered.addr s))) = stop then
        fillFrom ⟨D, upTo p.regionWords (z.newTop p.regionWords p.objs),
          p.covered.addr z.top⟩ tries r [] f
      else
        let claimed ← release (upTo p.regionWords (z.newTop p.regionWords p.objs)) r stop []
        let (r, f) ← check ((← get).nextSource (p.covered.addr z.top) stop f)
        fillFrom ⟨D, upTo p.regionWords (z.newTop p.regionWords p.objs),
          p.covered.addr z.top⟩ tries r claimed f) h
      fun out h' => K.Filled done D
        (p.arrivals (D * p.regionWords) (z.fillEnd p.regionWords p.objs D)) out h' := by
  have hW := p.regionWords_pos
  have hz := hp.ordered z ht.mem
  have hloaded := hfills.serves.loaded
  have hmono := z.packed_mono p.regionWords p.objs hsc
  have halign : ∀ x, h.table.alignDown (p.covered.addr x)
      = .ok (p.covered.addr (x / p.regionWords * p.regionWords)) := by
    intro x
    rw [← hloaded.covered, RegionTable.Laid.alignDown_addr, hloaded.regionWords_eq]
  have htries : z.last ≤ h.table.geometry.regionCount + 1 := by
    have := hloaded.region_lt hp ht.mem (r := z.last - 1) (by have := hz.first_lt_last; omega)
    omega
  simp only [leads_bind, leads_get]
  rw [hf.source, halign, leads_check_ok, halign, leads_check_ok]
  by_cases hsame : s / p.regionWords = c / p.regionWords
  · rw [if_pos (by rw [hsame])]
    exact fillFrom_leads hp ht
      ⟨hfills, hboundary, by omega, hlt, hreads.congr hsame, hf⟩ (le_add_left htries)
  · -- The object reaches into the next region.
    obtain ⟨hs1, hs2⟩ := div_mul_bounds hW s
    have hle : s / p.regionWords ≤ c / p.regionWords := Nat.div_le_div_right hsc
    have hdiv : c / p.regionWords = s / p.regionWords + 1 := by
      have hless : c < (s / p.regionWords + 1 + 1) * p.regionWords := by
        rw [Nat.succ_mul, Nat.succ_mul]
        omega
      have := div_lt_of_lt_mul hless
      omega
    have hbounds := div_mul_bounds hW c
    rw [hdiv] at hbounds
    rw [if_neg (by rw [Extent.addr_inj, Nat.mul_left_inj (by omega)]; exact hsame), hdiv]
    exact nextStretch_leads (fillFrom _ _) hp ht hfills hreads hlow (by omega) hboundary hbounds.1
      hbounds.2 hlt hf
      fun _ hstands => fillFrom_leads hp ht hstands (le_add_left htries)

/-- A region whose first word lies inside of an object is filled. -/
lemma fillFromInside_leads (hp : p.Valid) (ht : p.Target done i z D)
    (hfills : K.Fills done D (D * p.regionWords) r [] h)
    (hf : p.At f i D s (D * p.regionWords) (z.fillEnd p.regionWords p.objs D - D * p.regionWords))
    (ho : o ∈ p.objs) (hcross : o.Crosses s) (hkeep : z.keep * p.regionWords ≤ s) (htop : s < z.top)
    (hpacked : z.packed p.regionWords p.objs s = D * p.regionWords)
    (hreads : z.Reads p.regionWords p.objs D s r) :
    Leads K.may (fillFromInside
      ⟨D, upTo p.regionWords (z.newTop p.regionWords p.objs), p.covered.addr z.top⟩ r f) h
      fun out h' => K.Filled done D
        (p.arrivals (D * p.regionWords) (z.fillEnd p.regionWords p.objs D)) out h' := by
  have hlt := ht.lt_fillEnd
  have hend : z.fillEnd p.regionWords p.objs D ≤ D * p.regionWords + p.regionWords :=
    min_le_right _ _
  have hforward : p.forward s = D * p.regionWords := by
    rw [forward_eq_packed hp ht.mem hkeep htop, hpacked]
  have hz := hp.ordered z ht.mem
  obtain ⟨hstart, hpast⟩ := hcross
  have hpastTop : o.past ≤ z.top := (hp.has_of_mem ht.mem ho ⟨hstart.le, hpast⟩
    (hz.has_of_le (le_trans (Nat.mul_le_mul_right _ hz.first_le_keep) hkeep) htop)).2
  have hplace : ∀ k, s + k ≤ o.past →
      z.packed p.regionWords p.objs (s + k) = D * p.regionWords + k := fun k hk => by
    rw [Zone.packed_within hkeep ho hstart.le hk, hpacked]
  rw [fillFromInside, leads_bind]
  refine (copyPartial_leads hp ht hfills.filled hf (by omega) (by omega) ho
    ⟨hstart, hpast⟩ hforward).mono fun f₁ h₁ => ?_
  rintro ⟨htable, hfilled₁, hf₁⟩
  have hfills₁ := hfills.refilled (by rw [htable]; exact .refl _ _) hfilled₁
  by_cases hfull : o.past - s < z.fillEnd p.regionWords p.objs D - D * p.regionWords
  · -- The object ends in the region.
    have hlast := hplace (o.past - s) (by omega)
    rw [Nat.min_eq_left hfull.le, ← hlast, Nat.add_sub_cancel' hpast.le] at hfills₁ hf₁
    rw [Nat.add_sub_cancel' hpast.le] at hlast
    rw [show z.fillEnd p.regionWords p.objs D - D * p.regionWords - (o.past - s)
      = z.fillEnd p.regionWords p.objs D - z.packed p.regionWords p.objs o.past by omega] at hf₁
    rw [if_neg (by rw [hf₁.remaining]; omega), hf.source]
    exact fillBehind_leads hp ht hfills₁ hreads hpacked.ge (hp.separate.boundary_past ho) hpast.le
      (by omega) hpastTop (by omega) hf₁
  · -- The region lies inside of the object.
    have hlast := hplace (z.fillEnd p.regionWords p.objs D - D * p.regionWords) (by omega)
    have hmove := hp.forward_add_of_mem (k := s - o.start) ho (le_refl o.start) (by omega)
    have hwords : o.past = o.start + o.words := rfl
    have hnext := (div_mul_bounds p.regionWords_pos s).2
    rw [Nat.min_eq_right (not_lt.1 hfull), Nat.add_sub_cancel' hlt.le] at hfills₁ hf₁
    rw [Nat.add_sub_cancel' hlt.le] at hlast
    rw [Nat.add_sub_cancel' hstart.le] at hmove
    rw [Nat.sub_self] at hf₁
    rw [if_pos hf₁.remaining, hf₁.source, ← hf₁.copied]
    exact fillEnds_leads hp ht rfl hfills₁ hreads hkeep hpacked.ge ho (by rw [Nat.succ_mul]; omega)
      (by omega) (by omega) hlast
      (ht.deferred_none hp ho (by omega) (by omega) (Or.inr (by omega)))

end Heap

/-- A fill begins where the heap rests: no word of the region is filled, and no source region is
released. -/
lemma Upkeep.Rests.fills {μ : Type} [ObjectModel μ] {K : Upkeep μ p} {h : Heap μ}
    (hrests : K.Rests done h) (hp : p.Valid) (ht : p.Target done i z D)
    (hnone : ∀ x, z.keep ≤ x → x < z.last → D < x → z.Feeds p.regionWords p.objs x D → r ≤ x) :
    K.Fills done D (D * p.regionWords) r [] h := by
  have htaken : ∀ z' ∈ p.zones, ∀ q x, z'.keep ≤ x → x < z'.last → q < x →
      z'.Feeds p.regionWords p.objs x q →
      (done q ↔ Taken done D r q x) := by
    intro z' hz' q x h1 h2 hq hfeeds
    refine (or_iff_left ?_).symm
    rintro ⟨rfl, hlt⟩
    obtain rfl := hp.eq_of_feeds ht.mem hz' ht.keep_le (ht.lt_last hp) hq h2 hfeeds
    exact absurd (hnone x h1 h2 hq hfeeds) (not_le.2 hlt)
  obtain ⟨g, hg⟩ := hrests.reached
  refine ⟨⟨g, { hg with
    filled_iff := fun x => (hg.filled_iff x).trans (or_iff_left (by omega)).symm
    updated_iff :=
      fun o => (hg.updated_iff o).trans (and_congr_right fun ho => (or_iff_left ?_).symm) }⟩,
    hrests.counted.retake htaken, hrests.keeps, List.nodup_nil, fun x => ?_⟩
  · have := hp.separate.words_pos o ho
    omega
  · rw [← hp.freed_congr htaken]
    exact iff_of_false List.not_mem_nil fun hx => hx.2 hx.1

/-- The word that goes to the start of a region that receives data is found, in the source region of
that region. -/
lemma Plan.Serves.exists_firstSource {μ : Type} {h : Heap μ} (hs : p.Serves h) (hp : p.Valid)
    (hz : z ∈ p.zones) (hreceives : z.Receives p.regionWords p.objs D) :
    ∃ s, z.keep * p.regionWords ≤ s ∧ s < z.top ∧ Live p.objs s
      ∧ z.packed p.regionWords p.objs s = D * p.regionWords
        ∧ (h.table.regions.get D).source = s / p.regionWords
      ∧ h.firstSource (p.covered.addr (D * p.regionWords))
        (s / p.regionWords) = .ok (p.covered.addr s) := by
  have hW := p.regionWords_pos
  have hloaded := hs.loaded
  obtain ⟨s, hs1, hs2, hlive, hpacked⟩ :=
    z.exists_live_packed (y := D * p.regionWords) (x := z.top)
      (Nat.mul_le_mul_right p.regionWords hreceives.1) hreceives.2
  obtain ⟨hq1, hq2⟩ := div_mul_bounds hW s
  have hkeepq : z.keep ≤ s / p.regionWords := (Nat.le_div_iff_mul_le hW).2 hs1
  refine ⟨s, hs1, hs2, hlive, hpacked, ?_, ?_⟩
  · have hready := (hloaded.ready z hz).source (s / p.regionWords) D hkeepq
    have htop := (hp.ordered z hz).top_le_last
    rw [hloaded.regionWords_eq] at hready
    refine hready (by omega) (hreceives.lt_last (hp.ordered z hz)) ?_ ?_
    · rw [← hpacked]
      exact z.packed_mono p.regionWords p.objs hq1
    · rw [← hpacked]
      exact Zone.packed_lt hs1 hlive (by rw [Nat.succ_mul]; omega)
  · rw [← hpacked]
    exact Heap.firstSource_eq hp hloaded hs.consistent.marks hs.bitmap_covered hs.geometry hz hkeepq
      hq1 hq2 hlive hs2

namespace Heap

open Plan

variable {μ : Type} [ObjectModel μ] {K : Upkeep μ p} {h : Heap μ}

/-- The source region of a region is read first, unless it is the region itself; no region in front
of it feeds the region. -/
lemma reads_first (hW : 0 < W) (hkeep : z.keep * W ≤ s) (hlive : Live objs s)
    (hpacked : z.packed W objs s = D * W) :
    z.Reads W objs D s (if s / W = D then s / W + 1 else s / W)
      ∧ ∀ x, z.keep ≤ x → D < x → z.Feeds W objs x D →
        (if s / W = D then s / W + 1 else s / W) ≤ x := by
  have hDs : D ≤ s / W := (Nat.le_div_iff_mul_le hW).2 (hpacked ▸ Zone.packed_le hkeep)
  have hfeeds : z.Feeds W objs (s / W) D :=
    Zone.feeds_of_packed hW hkeep hlive hpacked.ge (by omega)
  refine ⟨?_, fun x hx hDx hxfeeds => ?_⟩
  · split
    case isTrue heq =>
      rw [heq]
      exact .self heq
    case isFalse hne => exact .other (by omega) hfeeds
  · obtain ⟨w, g1, g2, hw, heq⟩ := (Zone.feeds_iff hW hx).1 hxfeeds
    have hkeepx := Nat.mul_le_mul_right W hx
    have hle : s / W ≤ x := by
      by_contra hlt
      obtain ⟨hs1, hs2⟩ := div_mul_bounds hW s
      have hmul := Nat.mul_le_mul_right W (show x + 1 ≤ s / W by omega)
      rw [Nat.succ_mul] at hmul
      have hbelow :=
        Zone.packed_lt (z := z) (W := W) (show z.keep * W ≤ w by omega) hw (show w < s by omega)
      have := mul_le_of_le_div heq.ge
      omega
    split <;> omega

omit [ObjectModel μ] in
/-- What is read off the space of a region that is filled. -/
lemma space_of_target (hp : p.Valid) (ht : p.Target done i z D) (hserves : p.Serves h) :
    ∃ sp : Space, h.spaces[i]? = some sp
    ∧ h.spaceOf? (p.covered.addr (D * p.regionWords)) = some i ∧ p.covered.addr
      (D * p.regionWords) < sp.newTop
    ∧ Word.delta sp.newTop (p.covered.addr (D * p.regionWords))
      = .ok (z.newTop p.regionWords p.objs - D * p.regionWords)
    ∧ h.table.regionUpTo sp.newTop = .ok (upTo p.regionWords (z.newTop p.regionWords p.objs))
    ∧ sp.top = p.covered.addr z.top := by
  have hW := p.regionWords_pos
  have hloaded := hserves.loaded
  have hz := hp.ordered z ht.mem
  have hnewTop := hz.newTop_le p.objs
  have htop := hz.top_le_last
  have hwords := hz.last_le
  obtain ⟨sp, hsp, hmatches⟩ := hserves.exists_space ht.zone
  obtain ⟨h1, h2⟩ := (ht.has hp le_rfl (by omega)).1
  have heq : sp.newTop = p.covered.addr (z.newTop p.regionWords p.objs) := hmatches.newTop
  refine ⟨sp, hsp, ?_, ?_, ?_, ?_, hmatches.top⟩
  · refine (hserves.liesOver hp).spaceOf?_eq ht.zone ?_ ?_
    · rw [hserves.covered, Extent.addr_le_addr]
      exact h1
    · rw [hserves.covered, Extent.addr_lt_addr]
      exact h2
  · rw [heq, Extent.addr_lt_addr]
    exact ht.lt_newTop
  · rw [heq]
    exact Extent.delta_addr ht.lt_newTop.le
  · rw [heq, ← hloaded.covered, hloaded.laid.regionUpTo_addr (by rw [hloaded.covered]; omega),
      hloaded.regionWords_eq]

/-- A free region is filled. -/
theorem fillRegion_leads (hp : p.Valid) (ht : p.Target done i z D) (hrests : K.Rests done h) :
    Leads K.may (fillRegion D) h fun out h' =>
      K.Filled done D (p.arrivals (D * p.regionWords)
        (z.fillEnd p.regionWords p.objs D)) out h' := by
  have hz := hp.ordered z ht.mem
  have hserves := hrests.serves
  have hloaded := hserves.loaded
  have htop := hz.top_le_last
  have hwords := hz.last_le
  obtain ⟨s, hs1, hs2, hlive, hpacked, hsource, hfirst⟩ :=
    hserves.exists_firstSource hp ht.mem ht.freed.1
  obtain ⟨hreads, hnone⟩ := reads_first p.regionWords_pos hs1 hlive hpacked
  have hfills := hrests.fills hp ht fun x hx _ => hnone x hx
  obtain ⟨sp, hsp, hspaceOf, habove, hroom, hclaimEnd, htop'⟩ := space_of_target hp ht hserves
  have hmarked :=
    hserves.consistent.marks.isMarked_eq (w := s) (by rw [hserves.bitmap_covered]; omega)
  rw [hserves.bitmap_covered] at hmarked
  have hprogress : p.At ⟨i, p.covered.addr s, p.covered.addr (D * p.regionWords),
      min (z.newTop p.regionWords p.objs - D * p.regionWords) h.geometry.regionWords,
      0⟩ i D s (D * p.regionWords)
      (z.fillEnd p.regionWords p.objs D - D * p.regionWords) := by
    have hwords : h.geometry.regionWords = p.regionWords := by rw [hserves.geometry]; rfl
    refine ⟨rfl, rfl, rfl, ?_, (p.arrivals_self _).symm⟩
    rw [hwords, Zone.fillEnd]
    dsimp only
    omega
  rw [fillRegion]
  simp only [leads_bind, leads_get]
  rw [RegionTable.Laid.region_eq (hloaded.region_lt hp ht.mem (ht.lt_last hp)), leads_check_ok,
    hloaded.regionStart_eq, hspaceOf]
  dsimp only
  simp only [leads_bind]
  rw [space_eq hsp, leads_check_ok, if_neg (not_le.2 habove)]
  simp only [leads_bind]
  rw [hroom, leads_check_ok, hclaimEnd, leads_check_ok, hsource, hfirst, leads_check_ok, hmarked,
    leads_check_ok, htop']
  by_cases hstart : h.bitmap.begins.mem s = true
  · rw [if_pos hstart]
    obtain ⟨o, ho, rfl⟩ := (hserves.consistent.marks.mem_begins s).1 hstart
    have htries :=
      hloaded.region_lt hp ht.mem (r := z.last - 1) (by have := hz.first_lt_last; omega)
    rw [hloaded.geometry, ← hserves.geometry] at htries
    refine fillFrom_leads hp ht ⟨?_, hp.separate.boundary_start ho, hpacked.ge,
      hpacked ▸ ht.lt_fillEnd, hreads, ?_⟩ (by omega)
    · rw [hpacked]
      exact hfills
    · rw [hpacked]
      exact hprogress
  · rw [if_neg hstart]
    obtain ⟨o, ho, hcross⟩ :=
      crosses_of_live hlive fun hs => hstart ((hserves.consistent.marks.mem_begins s).2 hs)
    exact fillFromInside_leads hp ht hfills hprogress ho hcross hs1 hs2 hpacked hreads

end Heap

end MarkCompact
