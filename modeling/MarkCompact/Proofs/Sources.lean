import MarkCompact.Proofs.Releasing

/-!
# Where copying starts

The first word that belongs at the start of a destination region is found in its source region:
behind the live words of the source region that go to earlier destinations.

Main statements: `skipLive_eq` (skipping live words), `firstSource_eq` (the first source word) and
`nextSource_eq` (the next region with data).
-/

namespace MarkCompact

variable {objs : List Span} {m : MarkBitmap} {a b n q r s tries w : ℕ} {z : Zone} {p : Plan}

namespace MarkBitmap.Marks

/-- From a boundary on, the first object start is the first live word. -/
lemma firstIn_eq_of_live (h : m.Marks objs) (ha : Boundary objs a) (has : a ≤ s) (hsb : s < b)
    (hs : Live objs s) (hcount : liveBelow objs s = liveBelow objs a) :
    m.begins.firstIn a b = s := by
  have found := h.firstIn_begins (a := a) (b := b) (by omega)
  have hdead : ∀ j, a ≤ j → j < s → ¬Live objs j := by
    intro j h1 h2 hj
    have hlow := liveBelow_mono objs h1
    have hlt := liveBelow_lt hj (Nat.lt_add_one j)
    have hhigh := liveBelow_mono objs (show j + 1 ≤ s by omega)
    omega
  have hstarts : Starts objs s := (ha.of_not_live has hdead).starts_of_live hs
  have hstart := found.start_le
  have hbefore := found.before s has
  by_contra hne
  rcases Nat.lt_or_gt_of_ne hne with hlt | hgt
  · obtain ⟨o, ho, heq⟩ := found.holds (by omega)
    exact hdead _ hstart hlt ⟨o, ho, le_of_eq heq, by have := h.separate.start_lt_past ho; omega⟩
  · exact hbefore hgt hstarts

/-- From inside an object, its end is found, unless the search ends before. -/
lemma firstEnd_eq {o : Span} (h : m.Marks objs) (ho : o ∈ objs) (hw : o.Covers w) (hwb : w ≤ b)
    (hb : b ≤ m.covered.words) :
    m.firstEnd (m.covered.addr w)
      (m.covered.addr b) = .ok (m.covered.addr (min (o.past - 1) b)) := by
  rw [firstEnd, h.bitOf_addr (by omega), ok_bind, h.bitOf_addr hb, ok_bind, Bitset.firstIn?,
    Bitset.checkRange_eq hwb (h.ends_size ▸ hb), ok_bind, h.firstIn_ends ho hw hwb]
  rfl

end MarkBitmap.Marks

namespace Heap

/-- Skipping `n` live words from a boundary on. -/
theorem skipLive_eq (h : m.Marks objs) (ha : Boundary objs a) (has : a ≤ s) (hsb : s < b)
    (hb : b ≤ m.covered.words) (hs : Live objs s) (hcount : liveBelow objs s = liveBelow objs a + n)
    (htries : b - a < tries) :
    skipLive m b tries a n = .ok (m.covered.addr s) := by
  induction tries generalizing a n with
  | zero => omega
  | succ tries ih =>
    -- The first live word from `a` on starts an object.
    obtain ⟨w, hw1, hw2, hw, hsame⟩ : ∃ w, a ≤ w ∧ w ≤ s ∧ Live objs w
        ∧ liveBelow objs w = liveBelow objs a := by
      by_cases hn : n = 0
      · exact ⟨s, has, le_refl s, hs, by omega⟩
      · have hmore : liveBelow objs a < liveBelow objs s := by omega
        obtain ⟨w, h1, h2, h3, h4⟩ := exists_first_live hmore
        exact ⟨w, h1, le_of_lt h2, h3, h4⟩
    have hfirst := h.firstIn_eq_of_live ha hw1 (lt_of_le_of_lt hw2 hsb) hw hsame
    have hdead : ∀ j, a ≤ j → j < w → ¬Live objs j := by
      intro j h1 h2 hj
      have hlow := liveBelow_mono objs h1
      have hlt := liveBelow_lt hj (Nat.lt_add_one j)
      have hhigh := liveBelow_mono objs (show j + 1 ≤ w by omega)
      omega
    obtain ⟨o, ho, rfl⟩ := (ha.of_not_live hw1 hdead).starts_of_live hw
    have hpos := h.separate.start_lt_past ho
    have hpast := h.past_le o ho
    rw [skipLive, Bitset.checkRange_eq (by omega) (h.begins_size ▸ hb), ok_bind, hfirst]
    dsimp only
    rw [if_neg (by omega)]
    by_cases hn : n = 0
    · rw [if_pos hn]
      have heq : o.start = s := eq_of_liveBelow hw hs (by omega)
      rw [heq]
      rfl
    · rw [if_neg hn, h.firstIn_ends ho ⟨le_refl _, hpos⟩ (by rw [h.size_eq]; omega), h.size_eq,
        show min (o.past - 1) m.covered.words - o.start + 1 = o.past - o.start by omega]
      have hcovers := liveBelow_covers ho (le_of_lt hpos) (le_refl o.past)
      by_cases hlt : n < o.past - o.start
      · rw [if_pos hlt]
        have hin := liveBelow_covers (w := o.start + n) ho (by omega) (by omega)
        have heq : o.start + n = s :=
          eq_of_liveBelow ⟨o, ho, by omega, by omega⟩ hs (by omega)
        rw [heq]
        rfl
      · rw [if_neg hlt, show min (o.past - 1) m.covered.words + 1 = o.past by omega]
        have hle : o.past ≤ s := by
          by_contra hgt
          have := liveBelow_covers (w := s) ho hw2 (by omega)
          omega
        exact ih (h.separate.boundary_past ho) hle (by omega) (by omega)

section

variable {W : ℕ} (h : m.Marks objs) (hs : Live objs s) (h2 : s < r * W + W)
  (hcount : liveBelow objs s = liveBelow objs (r * W) + n)
include h hs hcount

/-- In the object that reaches into a region the words are counted. -/
lemma eq_of_lt_partialOf (hn : n < partialOf objs W r) : r * W + n = s := by
  have hlive : ∀ w, r * W ≤ w → w < r * W + (n + 1) → Live objs w := fun w g1 g2 =>
    live_of_lt_partialOf h.separate g1 (by omega)
  refine eq_of_liveBelow (hlive _ (Nat.le_add_right ..) (by omega)) hs ?_
  rw [hcount, liveBelow_of_live (Nat.le_add_right ..) fun w g1 g2 => hlive w g1 (by omega),
    Nat.add_sub_cancel_left]

/-- A word that has more live words in front of it lies behind that object. -/
lemma partialOf_le_of_count (hn : partialOf objs W r ≤ n) : r * W + partialOf objs W r ≤ s := by
  have hpartial := liveBelow_partialOf h.separate W r
  by_contra hlt
  have := liveBelow_lt hs (not_le.1 hlt)
  omega

include h2

/-- That object does not take up the region then. -/
lemma boundary_of_count (hn : partialOf objs W r ≤ n) :
    Boundary objs (r * W + partialOf objs W r) := by
  have hlt := liveBelow_lt hs h2
  have hle := liveBelow_le_add objs (Nat.le_add_right (r * W) W)
  exact boundary_partialOf h.separate (by omega)

/-- Right behind that object the word starts the first object. -/
lemma firstBegin_eq_of_count (hend : r * W + W ≤ m.covered.words) (hn : n = partialOf objs W r) :
    m.firstBegin (m.covered.addr (r * W + partialOf objs W r)) (m.covered.addr (r * W + W))
      = .ok (m.covered.addr s) := by
  have hpartial := liveBelow_partialOf h.separate W r
  have hle := partialOf_le_of_count h hs hcount hn.ge
  rw [h.firstBegin_eq (by omega) hend,
    h.firstIn_eq_of_live (boundary_of_count h hs h2 hcount hn.ge) hle h2 hs (by omega)]

/-- Further behind it live words are skipped. -/
lemma skipLive_eq_of_count (hend : r * W + W ≤ m.covered.words) (hn : partialOf objs W r < n) :
    skipLive m (r * W + W) (r * W + W - (r * W + partialOf objs W r) + 2)
      (r * W + partialOf objs W r) (n - partialOf objs W r) = .ok (m.covered.addr s) := by
  have hpartial := liveBelow_partialOf h.separate W r
  exact skipLive_eq h (boundary_of_count h hs h2 hcount hn.le)
    (partialOf_le_of_count h hs hcount hn.le) h2 hend hs (by omega)
    (by omega)

end

variable {μ : Type} {h : Heap μ}

/-- The first word that goes to a destination is found in its source region. -/
theorem firstSource_eq (hp : p.Valid) (ht : p.Loaded h.table) (hm : h.bitmap.Marks p.objs)
    (hcovered : h.bitmap.covered = p.covered) (hgeometry : h.geometry = p.geometry)
    (hz : z ∈ p.zones) (hkeep : z.keep ≤ r) (hr1 : r * p.regionWords ≤ s)
    (hr2 : s < r * p.regionWords + p.regionWords) (hs : Live p.objs s) (htop : s < z.top) :
    h.firstSource (p.covered.addr (z.packed p.regionWords p.objs s)) r
      = .ok (p.covered.addr s) := by
  have hz' := hp.ordered z hz
  have hready := ht.ready z hz
  have hlast : r < z.last :=
    lt_of_mul_lt_mul_right (lt_of_le_of_lt hr1 (lt_of_lt_of_le htop hz'.top_le_last))
      (Nat.zero_le _)
  have hregion := ht.region_lt hp hz hlast
  have hkeepW := Nat.mul_le_mul_right p.regionWords hkeep
  have hend : r * p.regionWords + p.regionWords ≤ h.bitmap.covered.words := by
    have := Nat.mul_le_mul_right p.regionWords (show r + 1 ≤ z.last from hlast)
    rw [Nat.succ_mul] at this
    rw [hcovered]
    exact le_trans this hz'.last_le
  -- What the summary of the region says.
  have hdest := hready.destination r hkeep (by rw [ht.regionWords_eq]; omega)
  have hpartial := hready.partial_eq r (le_trans hz'.first_le_keep hkeep) hlast
  have hdata := hready.data_eq r hkeep hlast
  rw [ht.covered, ht.regionWords_eq, ← hcovered] at hdest
  rw [ht.regionWords_eq] at hpartial hdata
  have hstart : h.table.regionStart r = h.bitmap.covered.addr (r * p.regionWords) := by
    rw [ht.regionStart_eq, hcovered]
  have hstop : h.bitmap.covered.addr (r * p.regionWords) + h.geometry.regionBytes
      = h.bitmap.covered.addr (r * p.regionWords + p.regionWords) := by
    rw [hgeometry, Geometry.regionBytes, Nat.mul_comm p.geometry.regionWords, Extent.addr_add]
    rfl
  -- `n` live words of the region go elsewhere.
  obtain ⟨n, hcount⟩ : ∃ n, liveBelow p.objs s = liveBelow p.objs (r * p.regionWords) + n :=
    Nat.exists_eq_add_of_le (liveBelow_mono p.objs hr1)
  have hadd : z.packed p.regionWords p.objs s
      = z.packed p.regionWords p.objs (r * p.regionWords) + n := by
    rw [z.packed_add hkeepW hr1, hcount, Nat.add_sub_cancel_left]
  have hless : n < dataOf p.objs p.regionWords r := by
    have hlt := liveBelow_lt hs hr2
    rw [dataOf]
    omega
  have hnot : ¬h.bitmap.covered.addr (r * p.regionWords + p.regionWords)
      ≤ h.bitmap.covered.addr s := by
    rw [Extent.addr_le_addr]
    omega
  rw [← hcovered, firstSource, RegionTable.Laid.region_eq hregion, ok_bind, hdest, hstart]
  dsimp only
  rw [if_neg (by simp only [Extent.addr_lt_addr]; omega), hdata, if_neg (by omega), hpartial,
    hstop, hadd]
  by_cases hnone : n = 0
  · subst hnone
    rw [if_pos (by rw [Nat.add_zero])]
    by_cases hzero : partialOf p.objs p.regionWords r = 0
    · have hfound := firstBegin_eq_of_count hm hs hr2 hcount hend hzero.symm
      rw [hzero, Nat.add_zero] at hfound
      rw [if_pos hzero, hfound, ok_bind, if_neg hnot]
      rfl
    · have heq := eq_of_lt_partialOf hm hs hcount (Nat.pos_of_ne_zero hzero)
      rw [if_neg hzero, ← heq]
      rfl
  · rw [if_neg (by rw [Extent.addr_inj]; omega), Extent.delta_addr (by omega), ok_bind,
      Nat.add_sub_cancel_left, if_neg (by omega)]
    by_cases hinside : n ≤ partialOf p.objs p.regionWords r
    · rw [if_pos hinside]
      by_cases hsame : partialOf p.objs p.regionWords r = n
      · rw [if_pos hsame, Extent.addr_add, ← hsame,
          firstBegin_eq_of_count hm hs hr2 hcount hend hsame.symm, ok_bind, if_neg hnot]
        rfl
      · have heq := eq_of_lt_partialOf hm hs hcount (by omega)
        rw [if_neg hsame, Extent.addr_add, heq]
        rfl
    · have hle := partialOf_le p.objs p.regionWords r
      rw [if_neg hinside, hm.bitOf_addr hend, ok_bind, Extent.addr_add,
        hm.bitOf_addr (by omega), ok_bind,
        skipLive_eq_of_count hm hs hr2 hcount hend (not_le.1 hinside), ok_bind, if_neg hnot,
        if_neg (Nat.sub_ne_zero_of_lt (not_le.1 hinside))]
      rfl

/-- The first region with data is found. -/
lemma regionWithData?_eq {t : RegionTable} {c count : ℕ} (hle : c ≤ r) (hlt : r < c + count)
    (hempty : ∀ x, c ≤ x → x < r → (t.regions.get x).dataWords = 0)
    (hdata : (t.regions.get r).dataWords ≠ 0) :
    regionWithData? t count c = some r := by
  induction count generalizing c with
  | zero => omega
  | succ count ih =>
    rw [regionWithData?]
    rcases Nat.lt_or_eq_of_le hle with hcr | rfl
    · rw [if_pos (hempty c (le_refl c) hcr)]
      exact ih hcr (by omega) fun x h1 h2 => hempty x (by omega) h2
    · rw [if_neg hdata]

/-- The next source region is the first one with data from region `upTo b` on. -/
theorem nextSource_eq (hp : p.Valid) (ht : p.Loaded h.table) (hz : z ∈ p.zones)
    (hkeep : z.keep ≤ upTo p.regionWords b) (hstop : b ≤ z.top)
    (hmore : liveBelow p.objs (upTo p.regionWords b * p.regionWords) < liveBelow p.objs z.top)
    (f : Filling) :
    ∃ r, upTo p.regionWords b ≤ r ∧ r * p.regionWords < z.top ∧ dataOf p.objs p.regionWords r ≠ 0
      ∧ liveBelow p.objs (r * p.regionWords)
        = liveBelow p.objs (upTo p.regionWords b * p.regionWords)
      ∧ h.nextSource (p.covered.addr z.top) (p.covered.addr b) f
        = .ok (r, if f.source < p.covered.addr (r * p.regionWords)
          then { f with source := p.covered.addr (r * p.regionWords) } else f) := by
  have hW := p.regionWords_pos
  have hz' := hp.ordered z hz
  have hready := ht.ready z hz
  obtain ⟨w, hw1, hw2, hw3, hw4⟩ := exists_first_live hmore
  obtain ⟨h1, h2⟩ := div_mul_bounds hW w
  have hle : upTo p.regionWords b ≤ w / p.regionWords := (Nat.le_div_iff_mul_le hW).2 hw1
  have hlast : w / p.regionWords < z.last := div_lt_of_lt_mul (lt_of_lt_of_le hw2 hz'.top_le_last)
  have hsame : liveBelow p.objs (w / p.regionWords * p.regionWords)
      = liveBelow p.objs (upTo p.regionWords b * p.regionWords) := by
    have hlow := liveBelow_mono p.objs (Nat.mul_le_mul_right p.regionWords hle)
    have hhigh := liveBelow_mono p.objs h1
    omega
  have htopWords : z.top ≤ h.table.covered.words := by
    rw [ht.covered]
    exact le_trans hz'.top_le_last hz'.last_le
  have hupTo : ∀ x, x ≤ z.top →
      h.table.regionUpTo (p.covered.addr x) = .ok (upTo p.regionWords x) := fun x hx => by
    rw [← ht.covered, ht.laid.regionUpTo_addr (le_trans hx htopWords), ht.regionWords_eq]
  have hdata : dataOf p.objs p.regionWords (w / p.regionWords) ≠ 0 :=
    Nat.pos_iff_ne_zero.1 (dataOf_pos hw3 hW)
  refine ⟨w / p.regionWords, hle, lt_of_le_of_lt h1 hw2, hdata, hsame, ?_⟩
  have hfound : regionWithData? h.table (upTo p.regionWords z.top - upTo p.regionWords b)
      (upTo p.regionWords b)
      = some (w / p.regionWords) := by
    have hlt : w / p.regionWords < upTo p.regionWords z.top :=
      (lt_upTo_iff hW).2 (lt_of_le_of_lt h1 hw2)
    refine regionWithData?_eq hle (by omega) (fun x g1 g2 => ?_) ?_
    · rw [hready.data_eq x (le_trans hkeep g1) (by omega), ht.regionWords_eq, dataOf]
      have hlow := liveBelow_mono p.objs (Nat.mul_le_mul_right p.regionWords g1)
      have hhigh :=
        liveBelow_mono p.objs
          (Nat.mul_le_mul_right p.regionWords (show x + 1 ≤ w / p.regionWords from g2))
      rw [Nat.succ_mul] at hhigh
      omega
    · rw [hready.data_eq _ (le_trans hkeep hle) hlast, ht.regionWords_eq]
      exact hdata
  rw [nextSource, hupTo _ (le_refl _), ok_bind, hupTo _ hstop, ok_bind, hfound]
  dsimp only
  rw [ht.regionStart_eq]
  rfl

end Heap

end MarkCompact
