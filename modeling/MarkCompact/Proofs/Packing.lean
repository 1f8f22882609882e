import MarkCompact.Proofs.Accounting

/-!
# What a packing plans

A packing sends the data of region `q` to the words from `dest q` up to `dest (q + 1)`.  `Packed`
says what the table holds afterwards: the destination of every source region, the number of other
regions that its data touches, and for every region start inside packed data the source region whose
data covers it.

Main statements: `packRegions_eq` and `summarize_eq` (packing), `keepInPlace_eq` (a dense prefix).
-/

namespace MarkCompact

variable {W a b n q r x : ℕ}

/-- The words from `a` up to, not including, `b` have one in region `r`. -/
def Meets (W a b r : ℕ) : Prop :=
  a < r * W + W ∧ r * W < b ∧ a < b

instance (W a b r : ℕ) : Decidable (Meets W a b r) :=
  inferInstanceAs (Decidable (_ ∧ _ ∧ _))

lemma meets_iff (hW : 0 < W) (hab : a < b) : Meets W a b r ↔ a / W ≤ r ∧ r ≤ (b - 1) / W := by
  rw [Meets, Nat.le_div_iff_mul_le hW, ← Nat.lt_succ_iff (m := a / W), Nat.div_lt_iff_lt_mul hW,
    Nat.succ_mul]
  omega

/-- Words that are no more than a region lie in two neighbouring regions at most. -/
lemma last_le_succ_first (hW : 0 < W) (hn : 0 < n) (hle : n ≤ W) : (x + n - 1) / W ≤ x / W + 1 := by
  rw [← Nat.lt_succ_iff, Nat.div_lt_iff_lt_mul hW, Nat.succ_mul, Nat.succ_mul]
  have hbounds := div_mul_bounds hW x
  omega

/-- The region start among `n` words from `x` on, if there is one, is that of their last region. -/
lemma covers_start_iff (hW : 0 < W) (hn : 0 < n) (hle : n ≤ W) :
    x ≤ r * W ∧ r * W < x + n
      ↔ r = (x + n - 1) / W ∧ (x / W ≠ (x + n - 1) / W ∨ x % W = 0) := by
  have hfirst := div_mul_bounds hW x
  have hlast := div_mul_bounds hW (x + n - 1)
  have hsum := Nat.div_add_mod x W
  rw [Nat.mul_comm] at hsum
  have hnext := last_le_succ_first (x := x) hW hn hle
  have hmono : x / W ≤ (x + n - 1) / W := Nat.div_le_div_right (by omega)
  constructor
  · rintro ⟨h1, h2⟩
    have hr : (x + n - 1) / W = r := div_eq_of_bounds (by omega) (by omega)
    refine ⟨hr.symm, ?_⟩
    by_cases heq : x / W = (x + n - 1) / W
    · rw [heq, hr] at hsum
      exact Or.inr (by omega)
    · exact Or.inl heq
  · rintro ⟨rfl, hcase⟩
    refine ⟨?_, by omega⟩
    rcases hcase with hne | haligned
    · have heq : (x + n - 1) / W = x / W + 1 := by omega
      rw [heq, Nat.succ_mul]
      omega
    · by_cases heq : x / W = (x + n - 1) / W
      · rw [← heq]
        omega
      · have heq : (x + n - 1) / W = x / W + 1 := by omega
        rw [heq, Nat.succ_mul]
        omega

namespace Region

/-- The summaries agree in everything but what a packing plans. -/
structure SameSizes (a b : Region) : Prop where
  partialWords : b.partialWords = a.partialWords
  liveWords : b.liveWords = a.liveWords
  deferred : b.deferred = a.deferred
  blocksFilled : b.blocksFilled = a.blocksFilled
  pushed : b.pushed = a.pushed
  partialStart : b.partialStart = a.partialStart

lemma SameSizes.refl (a : Region) : a.SameSizes a :=
  ⟨rfl, rfl, rfl, rfl, rfl, rfl⟩

lemma SameSizes.trans {a b c : Region} (h : a.SameSizes b) (h' : b.SameSizes c) : a.SameSizes c :=
  ⟨h'.partialWords.trans h.partialWords, h'.liveWords.trans h.liveWords,
    h'.deferred.trans h.deferred, h'.blocksFilled.trans h.blocksFilled, h'.pushed.trans h.pushed,
    h'.partialStart.trans h.partialStart⟩

lemma SameSizes.dataWords {a b : Region} (h : a.SameSizes b) : b.dataWords = a.dataWords := by
  rw [Region.dataWords, Region.dataWords, h.partialWords, h.liveWords]

/-- The summary of region `r` after data of region `q`, `n` words, has been planned for word `x`. -/
def place (W q x n r : ℕ) (a : Region) : Region :=
  { a with
    source := if x ≤ r * W ∧ r * W < x + n then q else a.source
    state :=
      if r = q then packState (RegionTable.otherRegions q (x / W) ((x + n - 1) / W)) a.liveWords
        else a.state }

lemma otherRegions_lt (q first last : ℕ) :
    RegionTable.otherRegions q first last < claimedCount := by
  rw [RegionTable.otherRegions, claimedCount]
  split <;> split <;> omega

lemma setCount_eq {a : Region} {count : ℕ} (h : count < claimedCount) :
    a.setCount count = .ok { a with state := packState count a.liveWords } := by
  rw [setCount, if_pos h]
  rfl

lemma liveWords_packState (a : Region) (count : ℕ) :
    ({ a with state := packState count a.liveWords } : Region).liveWords = a.liveWords :=
  (unpack_pack a a.liveWords_lt).2

lemma count_packState (a : Region) (count : ℕ) :
    ({ a with state := packState count a.liveWords } : Region).count = count :=
  (unpack_pack a a.liveWords_lt).1

lemma sameSizes_place (W q x n r : ℕ) (a : Region) : a.SameSizes (a.place W q x n r) where
  partialWords := rfl
  liveWords := by
    by_cases hr : r = q
    · simp only [place, liveWords, if_pos hr]
      exact liveWords_packState a _
    · simp only [place, liveWords, if_neg hr]
  deferred := rfl
  blocksFilled := rfl
  pushed := rfl
  partialStart := rfl

/-- The summary of region `r` after the data of region `q` has been given its address. -/
def sendTo (q addr r : ℕ) (a : Region) : Region :=
  if r = q then { a with destination := addr } else a

/-- The summary of region `r` after region `q` has been packed to the words from `x` up to, not
including, `y`, whose address is `addr`. -/
def pack (W q addr x y r : ℕ) (a : Region) : Region :=
  if x < y then (a.sendTo q addr r).place W q x (y - x) r else a.sendTo q addr r

section

variable (W q addr x y r : ℕ) (a : Region)

lemma sameSizes_sendTo : a.SameSizes (a.sendTo q addr r) := by
  rw [sendTo]
  split
  · exact ⟨rfl, rfl, rfl, rfl, rfl, rfl⟩
  · exact .refl a

lemma sameSizes_pack : a.SameSizes (a.pack W q addr x y r) := by
  rw [pack]
  split
  · exact (sameSizes_sendTo ..).trans (sameSizes_place ..)
  · exact sameSizes_sendTo ..

lemma destination_sendTo :
    (a.sendTo q addr r).destination = if r = q then addr else a.destination := by
  rw [sendTo]
  split <;> rfl

lemma source_sendTo : (a.sendTo q addr r).source = a.source := by
  rw [sendTo]
  split <;> rfl

lemma count_sendTo : (a.sendTo q addr r).count = a.count := by
  rw [sendTo]
  split <;> rfl

lemma destination_pack :
    (a.pack W q addr x y r).destination = if r = q then addr else a.destination := by
  rw [pack]
  split <;> exact destination_sendTo ..

lemma count_pack : (a.pack W q addr x y r).count
    = if r = q ∧ x < y then RegionTable.otherRegions q (x / W) ((y - 1) / W) else a.count := by
  rw [pack]
  by_cases hpos : x < y
  · rw [if_pos hpos, place]
    by_cases hr : r = q
    · rw [if_pos (show r = q ∧ x < y from ⟨hr, hpos⟩), show x + (y - x) - 1 = y - 1 by omega]
      simp only [if_pos hr]
      exact count_packState _ _
    · rw [if_neg (show ¬(r = q ∧ x < y) from fun h => hr h.1)]
      simp only [if_neg hr]
      exact count_sendTo ..
  · rw [if_neg hpos, if_neg (show ¬(r = q ∧ x < y) from fun h => hpos h.2), count_sendTo]

lemma source_pack :
    (a.pack W q addr x y r).source = if x ≤ r * W ∧ r * W < y then q else a.source := by
  rw [pack]
  by_cases hpos : x < y
  · rw [if_pos hpos, place, Nat.add_sub_of_le hpos.le, source_sendTo]
  · rw [if_neg hpos, if_neg (show ¬(x ≤ r * W ∧ r * W < y) by omega), source_sendTo]

end

/-- A summary is its sizes and its plan. -/
lemma SameSizes.eq {a b : Region} (h : a.SameSizes b) (hdestination : b.destination = a.destination)
    (hsource : b.source = a.source) (hcount : b.count = a.count) : b = a := by
  have hstate : b.state = a.state := by
    rw [← b.pack_unpack, hcount, h.liveWords, a.pack_unpack]
  cases a
  cases b
  simp only [Region.mk.injEq]
  exact ⟨hdestination, hsource, h.partialStart, h.partialWords, hstate, h.deferred,
    h.blocksFilled, h.pushed⟩

end Region

namespace RegionTable

variable {t t' t'' : RegionTable} {dest : ℕ → ℕ} {first last : ℕ}

/-! ## One region -/

lemma bytes_eq (h : n * 8 < wordValues) : Word.bytes n = 8 * n := by
  rw [Word.bytes, bytesPerWord, Nat.mod_eq_of_lt h, Nat.mul_comm]

lemma add_bytes_addr (h : t.Laid) (hx : x + n ≤ t.covered.words) :
    Word.add (t.covered.addr x) (Word.bytes n) = .ok (t.covered.addr (x + n)) := by
  have hsize := h.size_words
  have hlt := h.covered_lt
  have hn : n * 8 < wordValues := by omega
  rw [bytes_eq hn, Word.add_eq (by rw [Extent.addr_eq]; omega), Extent.addr_eq, Extent.addr_eq]
  congr 1
  omega

/-- Placing the data of region `q` does to every region what `Region.place` says. -/
lemma placeRegion_eq (ht : t.Laid) (hq : q < t.geometry.regionCount) (hn : 0 < n)
    (hle : n ≤ t.geometry.regionWords) (hx : x + n ≤ t.covered.words) :
    ∃ t', t.placeRegion q n (t.covered.addr x) = .ok t' ∧ t.SameShape t' ∧ t'.blocks = t.blocks
      ∧ ∀ r, r < t.geometry.regionCount →
        t'.regions.get r = (t.regions.get r).place t.geometry.regionWords q x n r := by
  have hW := t.geometry.regionWords_pos
  have hlast : x + (n - 1) = x + n - 1 := by omega
  have hfirst := ht.region_lt (i := x) (by omega)
  have hend := ht.region_lt (i := x + n - 1) (by omega)
  have hcover := fun r => covers_start_iff (r := r) (x := x) hW hn hle
  -- Once the region whose start the data covers, if any, has learnt its source, the count is set.
  have hcounted : ∀ t₁ : RegionTable, t.SameShape t₁ → t₁.blocks = t.blocks →
      (∀ r, t₁.regions.get r = { t.regions.get r with
        source := if x ≤ r * t.geometry.regionWords ∧ r * t.geometry.regionWords < x + n then q
          else (t.regions.get r).source }) →
      ∃ t',
        t₁.update q (·.setCount
          (otherRegions q (x / t.geometry.regionWords) ((x + n - 1) / t.geometry.regionWords)))
          = .ok t' ∧ t.SameShape t' ∧ t'.blocks = t.blocks
        ∧ ∀ r, r < t.geometry.regionCount →
          t'.regions.get r = (t.regions.get r).place t.geometry.regionWords q x n r := by
    intro t₁ hshape hblocks hget
    have ht₁ := hshape.laid ht
    have hq₁ : q < t₁.geometry.regionCount := hshape.geometry ▸ hq
    refine ⟨_, Laid.update_eq hq₁ (Region.setCount_eq (Region.otherRegions_lt ..)),
      hshape.trans (t₁.sameShape_setRegion _ _), hblocks, fun r _ => ?_⟩
    by_cases hrq : r = q
    · subst hrq
      rw [ht₁.get_setRegion_self hq₁, hget, Region.place, if_pos rfl]
      rfl
    · rw [Laid.get_setRegion_of_ne hrq, hget, Region.place, if_neg hrq]
  rw [placeRegion, add_bytes_addr ht (by omega), ok_bind, ht.regionOf_addr (by omega), ok_bind,
    ht.regionOf_addr (by omega), ok_bind, hlast, ht.isAligned_addr (by omega), ok_bind]
  dsimp only
  by_cases hne : x / t.geometry.regionWords ≠ (x + n - 1) / t.geometry.regionWords
  · rw [if_pos hne, Laid.update_pure hend, ok_bind]
    refine hcounted _ (t.sameShape_setRegion _ _) rfl fun r => ?_
    by_cases hr : r = (x + n - 1) / t.geometry.regionWords
    · rw [if_pos ((hcover r).2 ⟨hr, Or.inl hne⟩), hr, ht.get_setRegion_self hend]
    · rw [if_neg (fun h => hr ((hcover r).1 h).1), Laid.get_setRegion_of_ne hr]
  · rw [if_neg hne]
    rw [ne_eq, not_not] at hne
    by_cases haligned : x % t.geometry.regionWords = 0
    · rw [if_pos (by rw [haligned]; rfl), Laid.update_pure hfirst, ok_bind]
      refine hcounted _ (t.sameShape_setRegion _ _) rfl fun r => ?_
      by_cases hr : r = x / t.geometry.regionWords
      · rw [if_pos ((hcover r).2 ⟨hr.trans hne, Or.inr haligned⟩), hr, ht.get_setRegion_self hfirst]
      · rw [if_neg (fun h => hr (((hcover r).1 h).1.trans hne.symm)), Laid.get_setRegion_of_ne hr]
    · rw [if_neg (by simpa using haligned)]
      refine hcounted t (.refl t) rfl fun r => ?_
      rw [if_neg fun h => ((hcover r).1 h).2.elim (fun h => h hne) haligned]

/-! ## A run of regions -/

/-- What the table `t'` holds after the data of the regions from `first` up to, not including,
`last` of `t` has been packed to `dest`. -/
structure Packed (t t' : RegionTable) (dest : ℕ → ℕ) (first last : ℕ) : Prop where
  shape : t.SameShape t'
  blocks : t'.blocks = t.blocks
  sizes : ∀ r, r < t.geometry.regionCount → (t.regions.get r).SameSizes (t'.regions.get r)
  destination : ∀ r, first ≤ r → r < last → (t'.regions.get r).destination = t.covered.addr (dest r)
  destination_other : ∀ r, r < t.geometry.regionCount → ¬(first ≤ r ∧ r < last) →
    (t'.regions.get r).destination = (t.regions.get r).destination
  count : ∀ r, first ≤ r → r < last → dest r < dest (r + 1) →
    (t'.regions.get r).count = otherRegions r (dest r / t.geometry.regionWords)
      ((dest (r + 1) - 1) / t.geometry.regionWords)
  count_other : ∀ r, r < t.geometry.regionCount → ¬(first ≤ r ∧ r < last ∧ dest r < dest (r + 1)) →
    (t'.regions.get r).count = (t.regions.get r).count
  source : ∀ q r, first ≤ q → q < last → r < t.geometry.regionCount →
    dest q ≤ r * t.geometry.regionWords →
    r * t.geometry.regionWords < dest (q + 1) → (t'.regions.get r).source = q
  source_other : ∀ r, r < t.geometry.regionCount → (∀ q, first ≤ q → q < last →
    ¬(dest q ≤ r * t.geometry.regionWords ∧ r * t.geometry.regionWords < dest (q + 1))) →
    (t'.regions.get r).source = (t.regions.get r).source

namespace Packed

/-- Packing no region leaves the table as it is. -/
lemma of_le (t : RegionTable) (dest : ℕ → ℕ) (h : last ≤ first) : t.Packed t dest first last where
  shape := .refl t
  blocks := rfl
  sizes r _ := .refl _
  destination r h1 h2 := by omega
  destination_other r _ _ := rfl
  count r h1 h2 := by omega
  count_other r _ _ := rfl
  source q r h1 h2 := by omega
  source_other r _ _ := rfl

lemma refl (t : RegionTable) (dest : ℕ → ℕ) (first : ℕ) : t.Packed t dest first first :=
  of_le t dest (le_refl first)

end Packed

/-- A region that is not packed, and whose start no packed data covers, stays as it is. -/
lemma Packed.get_other (h : t.Packed t' dest first last) {r : ℕ} (hr : r < t.geometry.regionCount)
    (hout : ¬(first ≤ r ∧ r < last)) (huncovered : ∀ q, first ≤ q → q < last →
      ¬(dest q ≤ r * t.geometry.regionWords ∧ r * t.geometry.regionWords < dest (q + 1))) :
    t'.regions.get r = t.regions.get r :=
  (h.sizes r hr).eq (h.destination_other r hr hout) (h.source_other r hr huncovered)
    (h.count_other r hr fun hin => hout ⟨hin.1, hin.2.1⟩)

/-- The data goes to words that follow one another. -/
structure Consecutive (t : RegionTable) (dest : ℕ → ℕ) (first last : ℕ) : Prop where
  next : ∀ q, first ≤ q → q < last → dest (q + 1) = dest q + (t.regions.get q).dataWords
  le : ∀ q, first ≤ q → q < last → (t.regions.get q).dataWords ≤ t.geometry.regionWords

lemma Consecutive.mono (h : t.Consecutive dest first last) {q r : ℕ} (h1 : first ≤ q) (hqr : q ≤ r)
    (h2 : r ≤ last) :
    dest q ≤ dest r := by
  induction r, hqr using Nat.le_induction with
  | base => exact le_refl _
  | succ r hqr ih =>
    have hnext := h.next r (by omega) (by omega)
    have := ih (by omega)
    omega

/-- Packing region `first` and then the rest. -/
lemma Packed.step (hcons : t.Consecutive dest first last) (hlt : first < last)
    (hlast : last ≤ t.geometry.regionCount) {t₁ : RegionTable} (hshape : t.SameShape t₁)
    (hblocks : t₁.blocks = t.blocks)
    (hget : ∀ r, r < t.geometry.regionCount →
      t₁.regions.get r = (t.regions.get r).pack t.geometry.regionWords first
      (t.covered.addr (dest first)) (dest first) (dest (first + 1)) r)
    (hrest : t₁.Packed t' dest (first + 1) last) : t.Packed t' dest first last := by
  have hgeometry := hshape.geometry
  have hfirst : first < t.geometry.regionCount := by omega
  constructor
  case shape => exact hshape.trans hrest.shape
  case blocks => exact hrest.blocks.trans hblocks
  case sizes =>
    intro r hr
    have hpack := hget r hr ▸ Region.sameSizes_pack ..
    exact hpack.trans (hrest.sizes r (hgeometry ▸ hr))
  case destination =>
    intro r h1 h2
    rcases h1.eq_or_lt with rfl | hnext
    · rw [hrest.destination_other first (hgeometry ▸ hfirst) (by omega), hget first hfirst,
        Region.destination_pack, if_pos rfl]
    · rw [hrest.destination r hnext h2, hshape.covered]
  case destination_other =>
    intro r hr hnot
    rw [hrest.destination_other r (hgeometry ▸ hr) (by omega), hget r hr, Region.destination_pack,
      if_neg (by omega)]
  case count =>
    intro r h1 h2 hpos
    rcases h1.eq_or_lt with rfl | hnext
    · rw [hrest.count_other first (hgeometry ▸ hfirst) (by omega), hget first hfirst,
        Region.count_pack, if_pos ⟨rfl, hpos⟩]
    · rw [hrest.count r hnext h2 hpos, hgeometry]
  case count_other =>
    intro r hr hnot
    rw [hrest.count_other r (hgeometry ▸ hr) (by omega), hget r hr, Region.count_pack, if_neg]
    rintro ⟨rfl, hpos⟩
    exact hnot ⟨le_refl _, hlt, hpos⟩
  case source =>
    intro q r h1 h2 hr hlow hhigh
    rcases h1.eq_or_lt with rfl | hnext
    · -- What is packed later goes behind the data of region `first`.
      rw [hrest.source_other r (hgeometry ▸ hr), hget r hr, Region.source_pack,
        if_pos ⟨hlow, hhigh⟩]
      intro q' h1' h2'
      have hmono := hcons.mono (q := first + 1) (r := q') (by omega) h1' (by omega)
      rw [hgeometry]
      omega
    · exact hrest.source q r hnext h2 (hgeometry ▸ hr) (hgeometry ▸ hlow) (hgeometry ▸ hhigh)
  case source_other =>
    intro r hr hnone
    rw [hrest.source_other r (hgeometry ▸ hr) fun q h1 h2 => hgeometry ▸ hnone q (by omega) h2,
      hget r hr, Region.source_pack, if_neg (hnone first (le_refl _) hlt)]

/-- A region whose data fits is packed, and packing goes on with the next region. -/
lemma packRegions_next (ht : t.Laid) {targetEnd : ℕ} (hq : q < t.geometry.regionCount)
    (hn : (t.regions.get q).dataWords = n) (hle : n ≤ t.geometry.regionWords)
    (hwords : x + n ≤ t.covered.words) (hfits : 0 < n → t.covered.addr (x + n) ≤ targetEnd)
    (rest : ℕ) :
    ∃ t', packRegions targetEnd (rest + 1) q (t.covered.addr x) t
        = packRegions targetEnd rest (q + 1) (t.covered.addr (x + n)) t'
      ∧ t.SameShape t' ∧ t'.blocks = t.blocks ∧ ∀ r, r < t.geometry.regionCount →
        t'.regions.get r
          = (t.regions.get r).pack t.geometry.regionWords q (t.covered.addr x) x (x + n) r := by
  let a : Region := { t.regions.get q with destination := t.covered.addr x }
  have hsame : ((t.setRegion q a).regions.get q).dataWords = n := by
    rw [ht.get_setRegion_self hq]
    exact hn
  have hget : ∀ r, (t.setRegion q a).regions.get r
      = (t.regions.get r).sendTo q (t.covered.addr x) r := by
    intro r
    rw [Region.sendTo]
    by_cases hr : r = q
    · subst hr
      rw [if_pos rfl, ht.get_setRegion_self hq]
    · rw [if_neg hr, Laid.get_setRegion_of_ne hr]
  rw [packRegions, Laid.update_pure hq, ok_bind, Laid.region_eq (by exact hq), ok_bind]
  dsimp only
  rw [hsame]
  rcases Nat.eq_zero_or_pos n with rfl | hpos
  · refine ⟨t.setRegion q a, by rw [if_pos rfl]; rfl, t.sameShape_setRegion _ _, rfl, fun r _ => ?_⟩
    rw [hget, Region.pack, if_neg (by omega)]
  · obtain ⟨t', hplace, hshape, hblocks, hplaced⟩ :=
      placeRegion_eq (x := x) (ht.setRegion q a) (by exact hq) hpos hle
      (by rw [setRegion_covered]; exact hwords)
    rw [setRegion_covered] at hplace
    rw [if_neg (by omega), add_bytes_addr ht hwords, ok_bind, if_neg (not_lt.2 (hfits hpos)),
      hplace, ok_bind]
    refine ⟨t', rfl, (t.sameShape_setRegion q a).trans hshape, hblocks, fun r hr => ?_⟩
    rw [hplaced r hr, hget, Region.pack, if_pos (by omega), Nat.add_sub_cancel_left]
    rfl

/-- Regions whose data fits are packed one behind the other, and packing goes on behind them. -/
theorem packRegions_eq (first rest : ℕ) (ht : t.Laid) {targetEnd count : ℕ}
    (hcons : t.Consecutive dest first (first + count))
    (hcount : first + count ≤ t.geometry.regionCount)
    (hroom : dest (first + count) ≤ t.covered.words)
    (hfits : ∀ q, first ≤ q → q < first + count → dest q < dest (q + 1) →
      t.covered.addr (dest (q + 1)) ≤ targetEnd) :
    ∃ t', t.Packed t' dest first (first + count)
      ∧ packRegions targetEnd (count + rest) first (t.covered.addr (dest first)) t
        = packRegions targetEnd rest (first + count)
          (t.covered.addr (dest (first + count))) t' := by
  induction count generalizing first t with
  | zero => exact ⟨t, .refl t dest first, by rw [Nat.zero_add]; rfl⟩
  | succ count ih =>
    have hq : first < t.geometry.regionCount := by omega
    have hnext := hcons.next first (le_refl _) (by omega)
    have hmono :=
      hcons.mono (q := first + 1) (r := first + (count + 1)) (by omega) (by omega) (le_refl _)
    have hfits' := hfits first (le_refl _) (by omega)
    rw [hnext] at hmono hfits'
    obtain ⟨t₁, hfirst, hshape, hblocks, hget⟩ := packRegions_next (x := dest first) ht hq rfl
      (hcons.le first (le_refl _) (by omega)) (by omega)
        (fun hpos => hfits' (by omega)) (count + rest)
    rw [← hnext] at hfirst hget
    -- The rest is packed from a table that agrees with `t` on the sizes.
    have hdata : ∀ q, q < t.geometry.regionCount →
        (t₁.regions.get q).dataWords = (t.regions.get q).dataWords := fun q hq => by
      rw [hget q hq, (Region.sameSizes_pack ..).dataWords]
    have hlast : first + 1 + count = first + (count + 1) := by omega
    have hrest := ih (first + 1) (hshape.laid ht)
      ⟨fun q h1 h2 => by rw [hdata q (by omega)]; exact hcons.next q (by omega) (by omega),
        fun q h1 h2 =>
          by rw [hdata q (by omega), hshape.geometry]; exact hcons.le q (by omega) (by omega)⟩
      (by rw [hshape.geometry]; omega) (by rw [hshape.covered, hlast]; exact hroom)
      (fun q h1 h2 => by rw [hshape.covered]; exact hfits q (by omega) (by omega))
    rw [hlast, hshape.covered] at hrest
    obtain ⟨t', hpacked, hpack⟩ := hrest
    refine ⟨t', hpacked.step hcons (by omega) (by omega) hshape hblocks hget, ?_⟩
    rw [show count + 1 + rest = count + rest + 1 by omega, hfirst, hpack]

/-- Packing the regions between two addresses. -/
theorem summarize_eq (dest : ℕ → ℕ) (ht : t.Laid) {target targetEnd sourceBeg sourceEnd : ℕ}
    (hcons : t.Consecutive dest (sourceBeg / t.geometry.regionWords)
      (upTo t.geometry.regionWords sourceEnd))
    (hle : sourceBeg ≤ sourceEnd) (hsource : sourceEnd ≤ t.covered.words)
    (htargetEnd : targetEnd ≤ t.covered.words)
    (hstart : dest (sourceBeg / t.geometry.regionWords) = target)
    (hfits : dest (upTo t.geometry.regionWords sourceEnd) ≤ targetEnd) :
    ∃ t', t.summarize (t.covered.addr target) (t.covered.addr targetEnd) (t.covered.addr sourceBeg)
          (t.covered.addr sourceEnd)
        = .ok (.fits (t.covered.addr (dest (upTo t.geometry.regionWords sourceEnd))), t')
      ∧ t.Packed t' dest (sourceBeg / t.geometry.regionWords)
        (upTo t.geometry.regionWords sourceEnd) := by
  have hW := t.geometry.regionWords_pos
  have hregions : sourceBeg / t.geometry.regionWords ≤ upTo t.geometry.regionWords sourceEnd :=
    le_trans (div_le_upTo _ _) (upTo_mono hW hle)
  have hlast : sourceBeg / t.geometry.regionWords
      + (upTo t.geometry.regionWords sourceEnd - sourceBeg / t.geometry.regionWords)
      = upTo t.geometry.regionWords sourceEnd := by omega
  have hcount : upTo t.geometry.regionWords sourceEnd ≤ t.geometry.regionCount :=
    (upTo_le_iff hW).2 (ht.covered_words ▸ hsource)
  have hmono := fun q h1 h2 =>
    hcons.mono (q := q + 1) (r := upTo t.geometry.regionWords sourceEnd) h1 h2 (le_refl _)
  rw [← hlast] at hcons hcount hfits hmono
  obtain ⟨t', hpacked, heq⟩ := packRegions_eq _ 0 ht hcons hcount (hfits.trans htargetEnd)
    (fun q h1 h2 _ => Extent.addr_le_addr.2 ((hmono q (by omega) h2).trans hfits))
  rw [hlast] at heq hpacked
  refine ⟨t', ?_, hpacked⟩
  rw [summarize, ht.regionUpTo_addr hsource, ok_bind, ht.regionOf_addr (by omega),
    ok_bind, ← hstart]
  exact heq

/-! ## Regions that stay -/

/-- What the table `t'` holds after the regions from `first` up to, not including, `last` of `t`
have been kept in place. -/
structure Kept (t t' : RegionTable) (first last : ℕ) : Prop where
  shape : t.SameShape t'
  blocks : t'.blocks = t.blocks
  kept : ∀ r, first ≤ r → r < last → (t'.regions.get r) = { t.regions.get r with
    destination := t.covered.addr (r * t.geometry.regionWords)
    source := r
    state := t.geometry.regionWords - (t.regions.get r).partialWords }
  other : ∀ r, ¬(first ≤ r ∧ r < last) → t'.regions.get r = t.regions.get r

lemma keepRegions_eq (first count : ℕ) (ht : t.Laid)
    (hcount : first + count ≤ t.geometry.regionCount)
    (hpartial : ∀ r, first ≤ r → r < first + count →
      (t.regions.get r).partialWords ≤ t.geometry.regionWords) :
    ∃ t', keepRegions count first t = .ok t' ∧ t.Kept t' first (first + count) := by
  induction count generalizing first t with
  | zero => exact ⟨t, rfl, .refl t, rfl, fun r h1 h2 => by omega, fun r _ => rfl⟩
  | succ count ih =>
    have hq : first < t.geometry.regionCount := by omega
    have hle := hpartial first (le_refl _) (by omega)
    have hlimit := ht.regionWords_lt
    let a : Region := { t.regions.get first with
      destination := t.covered.addr (first * t.geometry.regionWords)
      source := first
      state := t.geometry.regionWords - (t.regions.get first).partialWords }
    obtain ⟨t', heq, hkept⟩ :=
      ih (first + 1) (ht.setRegion first a) (by rw [setRegion_geometry]; omega)
      fun r h1 h2 => by
        rw [Laid.get_setRegion_of_ne (by omega)]
        exact hpartial r (by omega) (by omega)
    have hlast : first + 1 + count = first + (count + 1) := by omega
    rw [hlast] at hkept
    refine ⟨t', ?_, (t.sameShape_setRegion _ _).trans hkept.shape, hkept.blocks, fun r h1 h2 => ?_,
      fun r hnot => ?_⟩
    · rw [keepRegions, Laid.update_eq (b := a) hq, ok_bind, heq]
      rw [Region.setCount_eq (by decide), ok_bind, Word.sub_eq hle, ok_bind, Region.setLiveWords,
        if_pos (by omega), Laid.regionStart_eq]
      have hcount : ({ t.regions.get first with
            destination := t.covered.addr (first * t.geometry.regionWords)
            source := first
            state := packState 0 (t.regions.get first).liveWords } : Region).count = 0 :=
        Region.count_packState { t.regions.get first with
          destination := t.covered.addr (first * t.geometry.regionWords), source := first } 0
      show Except.ok _ = Except.ok _
      congr 2
      rw [packState]
      simp only [Region.liveWords] at hcount ⊢
      rw [hcount]
      omega
    · by_cases hr : r = first
      · subst hr
        rw [hkept.other r (by omega), ht.get_setRegion_self hq]
      · rw [hkept.kept r (by omega) h2, Laid.get_setRegion_of_ne hr]
        rfl
    · rw [hkept.other r (by omega), Laid.get_setRegion_of_ne (by omega)]

/-- Keeping the regions between two region starts in place. -/
theorem keepInPlace_eq (ht : t.Laid) (hfirst : first ≤ last) (hlast : last ≤ t.geometry.regionCount)
    (hpartial : ∀ r, first ≤ r → r < last →
      (t.regions.get r).partialWords ≤ t.geometry.regionWords) :
    ∃ t', t.keepInPlace (t.covered.addr (first * t.geometry.regionWords))
      (t.covered.addr (last * t.geometry.regionWords))
        = .ok t' ∧ t.Kept t' first last := by
  have hW := t.geometry.regionWords_pos
  have hle : ∀ r, r ≤ t.geometry.regionCount → r * t.geometry.regionWords ≤ t.covered.words :=
    fun r hr => by
    rw [ht.covered_words]
    exact Nat.mul_le_mul_right _ hr
  have hsum : first + (last - first) = last := by omega
  obtain ⟨t', heq, hkept⟩ := keepRegions_eq first (last - first) ht (by omega)
    (by rw [hsum]; exact hpartial)
  rw [hsum] at hkept
  refine ⟨t', ?_, hkept⟩
  rw [keepInPlace, ht.isAligned_addr (hle first (by omega)), ok_bind, Nat.mul_mod_left,
    ht.isAligned_addr (hle last hlast), Nat.mul_mod_left, ht.regionOf_addr (hle last hlast),
    ht.regionOf_addr (hle first (by omega)),
    Nat.mul_div_cancel _ hW, Nat.mul_div_cancel _ hW]
  exact heq

end RegionTable

end MarkCompact
