import Mathlib.Algebra.BigOperators.Intervals
import Mathlib.Tactic.IntervalCases
import MarkCompact.Proofs.Packing

/-!
# Where packing sends every region

`RegionTable.summarize` packs the regions between two addresses, in order and without gaps, from a
region start on. So the data of a region goes to the word behind the data of the regions before it
(`placedAt`), touches at most two regions besides its own, and every region that starts inside
packed data has one source.  `PlansExactly` says so.

Packing stops at the first region that does not fit.  The regions before it are planned all the
same, unless an object reaches into it: then it cannot be moved alone.

Main statement: `summarize_exact`.
-/

namespace MarkCompact

/-- Between two indices at which a property differs it changes somewhere. -/
lemma exists_change {P : ℕ → Prop} {first last : ℕ} (hle : first ≤ last) (hfirst : P first)
    (hlast : ¬P last) :
    ∃ r, first ≤ r ∧ r < last ∧ P r ∧ ¬P (r + 1) := by
  induction last, hle using Nat.le_induction with
  | base => exact absurd hfirst hlast
  | succ last hle ih =>
    by_cases hp : P last
    · exact ⟨last, hle, Nat.lt_succ_self _, hp, hlast⟩
    · obtain ⟨r, h1, h2, hr⟩ := ih hp
      exact ⟨r, h1, Nat.lt_succ_of_lt h2, hr⟩

namespace RegionTable

variable {t t' : RegionTable} {W a b n k first last r source sourceEnd targetEnd : ℕ}

/-! ## Places -/

/-- The region of an address. -/
def regionAt (t : RegionTable) (addr : ℕ) : ℕ :=
  (addr - t.covered.start) / t.geometry.regionBytes

/-- One past the last region that starts before an address. -/
def regionsBelow (t : RegionTable) (addr : ℕ) : ℕ :=
  upTo t.geometry.regionBytes (addr - t.covered.start)

/-- The words of data in the regions from `first` up to, not including, `r`. -/
def dataBefore (t : RegionTable) (first r : ℕ) : ℕ :=
  ∑ q ∈ Finset.Ico first r, (t.regions.get q).dataWords

/-- The word to which the data of region `r` is packed, if that of region `first` goes to the start
of region `k`. -/
def placedAt (t : RegionTable) (k first r : ℕ) : ℕ :=
  k * t.geometry.regionWords + t.dataBefore first r

/-- The data of the regions from `first` up to, not including, `last` ends at `targetEnd` or before
it. -/
def Fits (t : RegionTable) (k first last targetEnd : ℕ) : Prop :=
  t.dataBefore first last = 0 ∨ t.covered.addr (t.placedAt k first last) ≤ targetEnd

instance (t : RegionTable) (k first last targetEnd : ℕ) :
    Decidable (t.Fits k first last targetEnd) :=
  inferInstanceAs (Decidable (_ ∨ _))

lemma placedAt_first (t : RegionTable) (k first : ℕ) :
    t.placedAt k first first = k * t.geometry.regionWords := by
  rw [placedAt, dataBefore, Finset.Ico_self, Finset.sum_empty, Nat.add_zero]

lemma placedAt_succ (t : RegionTable) (k : ℕ) (h : first ≤ r) :
    t.placedAt k first (r + 1) = t.placedAt k first r + (t.regions.get r).dataWords := by
  rw [placedAt, placedAt, dataBefore, dataBefore, Finset.sum_Ico_succ_top h, Nat.add_assoc]

lemma consecutive_placedAt
    (hdata : ∀ r, r < t.geometry.regionCount → (t.regions.get r).dataWords ≤ t.geometry.regionWords)
    (hlast : last ≤ t.geometry.regionCount) : t.Consecutive (t.placedAt k first) first last where
  next _ h1 _ := t.placedAt_succ k h1
  le q _ h2 := hdata q (by omega)

/-- Data moves towards the start of the covered range. -/
lemma placedAt_le (hcons : t.Consecutive (t.placedAt k first) first last) (hk : k ≤ first)
    (h1 : first ≤ r) (h2 : r ≤ last) : t.placedAt k first r ≤ r * t.geometry.regionWords := by
  induction r, h1 using Nat.le_induction with
  | base => exact (t.placedAt_first k first).trans_le (Nat.mul_le_mul_right _ hk)
  | succ r h1 ih =>
    have hnext := hcons.next r h1 (by omega)
    have hle := hcons.le r h1 (by omega)
    have hplaced := ih (by omega)
    rw [hnext, Nat.succ_mul]
    omega

lemma fits_first (t : RegionTable) (k first targetEnd : ℕ) : t.Fits k first first targetEnd :=
  Or.inl (by rw [dataBefore, Finset.Ico_self, Finset.sum_empty])

/-- If data fits, so does that of every region before its end. -/
lemma Fits.addr_le (h : t.Fits k first last targetEnd)
    (hcons : t.Consecutive (t.placedAt k first) first last) (h1 : first ≤ r) (h2 : r < last)
    (hpos : t.placedAt k first r < t.placedAt k first (r + 1)) :
    t.covered.addr (t.placedAt k first (r + 1)) ≤ targetEnd := by
  have hlow := hcons.mono (le_refl first) h1 h2.le
  have hmono := hcons.mono (q := r + 1) (r := last) (by omega) h2 (le_refl _)
  rcases h with hnone | hfits
  · have hfirst := t.placedAt_first k first
    have hlast : t.placedAt k first last = k * t.geometry.regionWords := by
      rw [placedAt, hnone, Nat.add_zero]
    omega
  · exact (Extent.addr_le_addr.2 hmono).trans hfits

/-- A region behind which the data no longer fits has data, and that data ends behind the target. -/
lemma not_fits_succ (h1 : first ≤ r) (hfits : t.Fits k first r targetEnd)
    (hnot : ¬t.Fits k first (r + 1) targetEnd) :
    (t.regions.get r).dataWords ≠ 0 ∧ targetEnd < t.covered.addr (t.placedAt k first (r + 1)) := by
  rw [Fits, not_or, not_le] at hnot
  refine ⟨fun hempty => ?_, hnot.2⟩
  have hsame : t.dataBefore first (r + 1) = t.dataBefore first r := by
    rw [dataBefore, dataBefore, Finset.sum_Ico_succ_top h1, hempty, Nat.add_zero]
  rcases hfits with hnone | hle
  · exact hnot.1 (hsame.trans hnone)
  · rw [placedAt, hsame, ← placedAt] at hnot
    exact absurd hle (not_le.2 hnot.2)

/-! ## What is planned -/

/-- The table `t'` is `t` in which the data of the regions from `first` up to, not including, `last`
is planned for the words from the start of region `k` on. -/
structure PlansExactly (t t' : RegionTable) (k first last : ℕ) : Prop where
  shape : t.SameShape t'
  sizes : ∀ r, r < t.geometry.regionCount → (t.regions.get r).SameSizes (t'.regions.get r)
  destination_eq : ∀ r, first ≤ r → r < last →
    (t'.regions.get r).destination = t.covered.addr (t.placedAt k first r)
  count_eq : ∀ r, first ≤ r → r < last → (t.regions.get r).dataWords ≠ 0 →
    (t'.regions.get r).count
      = ((Finset.range t.geometry.regionCount).filter fun D =>
          D ≠ r ∧ Meets t.geometry.regionWords (t.placedAt k first r)
            (t.placedAt k first (r + 1)) D).card
  count_le : ∀ r, first ≤ r → r < last → (t.regions.get r).dataWords ≠ 0 →
    (t'.regions.get r).count ≤ 2
  source_mem : ∀ D, k ≤ D → D * t.geometry.regionWords < t.placedAt k first last →
    first ≤ (t'.regions.get D).source ∧ (t'.regions.get D).source < last
  source_covers : ∀ D, k ≤ D → D * t.geometry.regionWords < t.placedAt k first last →
    t.placedAt k first (t'.regions.get D).source ≤ D * t.geometry.regionWords
      ∧ D * t.geometry.regionWords < t.placedAt k first ((t'.regions.get D).source + 1)

/-- The regions besides its own that data touches which ends in its own region or before it. -/
lemma otherRegions_eq_card (hW : 0 < W) (hab : a < b) (hle : b ≤ a + W) (hb : b ≤ r * W + W)
    (hr : r < n) :
    otherRegions r (a / W)
      ((b - 1) / W) = ((Finset.range n).filter fun D => D ≠ r ∧ Meets W a b D).card := by
  have hmono : a / W ≤ (b - 1) / W := Nat.div_le_div_right (by omega)
  have hnext : (b - 1) / W ≤ a / W + 1 := by
    have := last_le_succ_first (x := a) hW (show 0 < b - a by omega) (by omega)
    rwa [show a + (b - a) - 1 = b - 1 by omega] at this
  have hlast : (b - 1) / W ≤ r := Nat.lt_succ_iff.1 (div_lt_of_lt_mul (by rw [Nat.succ_mul]; omega))
  have heq : ((Finset.range n).filter fun D => D ≠ r ∧ Meets W a b D)
      = ({a / W, (b - 1) / W} : Finset ℕ).erase r := by
    ext D
    simp only [Finset.mem_filter, Finset.mem_range, Finset.mem_erase, Finset.mem_insert,
      Finset.mem_singleton, meets_iff hW hab]
    omega
  rw [heq, otherRegions, Finset.card_erase_eq_ite]
  by_cases hone : a / W = (b - 1) / W
  · rw [hone, if_pos rfl, Finset.pair_eq_singleton, Finset.card_singleton]
    by_cases hself : r = (b - 1) / W
    · rw [if_pos hself, if_pos (by simpa using hself)]
    · rw [if_neg hself, if_neg (by simpa using hself)]
  · rw [if_neg hone, Finset.card_pair hone]
    by_cases hself : r = (b - 1) / W
    · rw [if_pos hself, if_pos (by simp [hself])]
    · rw [if_neg hself, if_neg (by simp only [Finset.mem_insert, Finset.mem_singleton]; omega)]

lemma otherRegions_le (r first last : ℕ) : otherRegions r first last ≤ 2 := by
  rw [otherRegions]
  split <;> split <;> omega

theorem Packed.plansExactly (hpacked : t.Packed t' (t.placedAt k first) first last)
    (hcons : t.Consecutive (t.placedAt k first) first last) (hk : k ≤ first)
    (hlast : last ≤ t.geometry.regionCount) :
    t.PlansExactly t' k first last := by
  have hW := t.geometry.regionWords_pos
  have hcount : ∀ r, first ≤ r → r < last → (t.regions.get r).dataWords ≠ 0 →
      (t'.regions.get r).count
      = otherRegions r (t.placedAt k first r / t.geometry.regionWords)
          ((t.placedAt k first (r + 1) - 1) / t.geometry.regionWords) := by
    intro r h1 h2 hdata
    have hnext := hcons.next r h1 h2
    exact hpacked.count r h1 h2 (by omega)
  -- Behind the first place and before the last one, a region start lies in the data of one region.
  have hcovered : ∀ D, k ≤ D → D * t.geometry.regionWords < t.placedAt k first last →
      ∃ q, first ≤ q ∧ q < last ∧ (t'.regions.get D).source = q
        ∧ t.placedAt k first q ≤ D * t.geometry.regionWords
        ∧ D * t.geometry.regionWords < t.placedAt k first (q + 1) := by
    intro D hD hlt
    have hkD : t.placedAt k first first ≤ D * t.geometry.regionWords :=
      (t.placedAt_first k first).trans_le (Nat.mul_le_mul_right _ hD)
    have hle : first ≤ last := by
      by_contra hgt
      rw [placedAt, dataBefore, Finset.Ico_eq_empty (by omega), Finset.sum_empty,
        Nat.add_zero] at hlt
      exact absurd (Nat.mul_le_mul_right t.geometry.regionWords hD) (not_le.2 hlt)
    obtain ⟨q, h1, h2, hlow, hhigh⟩ :=
      exists_change (P := fun r => t.placedAt k first r ≤ D * t.geometry.regionWords)
      hle hkD (not_le.2 hlt)
    have hD' : D < t.geometry.regionCount := by
      have hplaced := placedAt_le hcons hk hle (le_refl _)
      exact lt_of_lt_of_le (Nat.lt_of_mul_lt_mul_right (hlt.trans_le hplaced)) hlast
    exact ⟨q, h1, h2, hpacked.source q D h1 h2 hD' hlow (not_le.1 hhigh), hlow, not_le.1 hhigh⟩
  exact
    { shape := hpacked.shape
      sizes := hpacked.sizes
      destination_eq := hpacked.destination
      count_eq := fun r h1 h2 hdata => by
        have hnext := hcons.next r h1 h2
        have hle := hcons.le r h1 h2
        have hplaced := placedAt_le hcons hk h1 h2.le
        rw [hcount r h1 h2 hdata]
        exact otherRegions_eq_card hW (by omega) (by omega) (by omega) (by omega)
      count_le := fun r h1 h2 hdata => by
        rw [hcount r h1 h2 hdata]
        exact otherRegions_le ..
      source_mem := fun D hD hlt => by
        obtain ⟨q, h1, h2, rfl, _⟩ := hcovered D hD hlt
        exact ⟨h1, h2⟩
      source_covers := fun D hD hlt => by
        obtain ⟨q, _, _, rfl, hcovers⟩ := hcovered D hD hlt
        exact hcovers }

/-- A destination of another region does not matter. -/
lemma PlansExactly.setDestination (h : t.PlansExactly t' k first last) (ht : t.Laid)
    (hr : r < t.geometry.regionCount) (hout : last ≤ r) (addr : ℕ) :
    t.PlansExactly (t'.setRegion r { t'.regions.get r with destination := addr }) k first last := by
  have ht' := h.shape.laid ht
  have hself :=
    ht'.get_setRegion_self (a := { t'.regions.get r with destination := addr })
      (h.shape.geometry ▸ hr)
  have hother : ∀ q, q < last →
      (t'.setRegion r { t'.regions.get r with destination := addr }).regions.get q
      = t'.regions.get q := fun q hq => Laid.get_setRegion_of_ne (by omega)
  have hsource : ∀ q,
      ((t'.setRegion r { t'.regions.get r with destination := addr }).regions.get q).source
      = (t'.regions.get q).source := fun q => by
    by_cases hq : q = r
    · rw [hq, hself]
    · rw [Laid.get_setRegion_of_ne hq]
  exact
    { shape := h.shape.trans (t'.sameShape_setRegion _ _)
      sizes := fun q hq => by
        by_cases hqr : q = r
        · rw [hqr, hself]
          exact (h.sizes r hr).trans ⟨rfl, rfl, rfl, rfl, rfl, rfl⟩
        · rw [Laid.get_setRegion_of_ne hqr]
          exact h.sizes q hq
      destination_eq := fun q h1 h2 => by rw [hother q h2, h.destination_eq q h1 h2]
      count_eq := fun q h1 h2 hdata => by rw [hother q h2, h.count_eq q h1 h2 hdata]
      count_le := fun q h1 h2 hdata => by rw [hother q h2]; exact h.count_le q h1 h2 hdata
      source_mem := fun D hD hlt => by rw [hsource]; exact h.source_mem D hD hlt
      source_covers := fun D hD hlt => by rw [hsource]; exact h.source_covers D hD hlt }

/-! ## Packing -/

/-- The region behind which the data does not fit stops the packing. -/
lemma packRegions_stop (ht : t.Laid) (hr : r < t.geometry.regionCount)
    (hdata : (t.regions.get r).dataWords ≠ 0)
    (hwords : a + (t.regions.get r).dataWords ≤ t.covered.words)
    (hpast : targetEnd < t.covered.addr (a + (t.regions.get r).dataWords)) :
    packRegions targetEnd (n + 1) r (t.covered.addr a) t
      = if (t.regions.get r).partialWords = 0 then
        .ok (.stopped (t.covered.addr a) (t.regionStart r),
          t.setRegion r { t.regions.get r with destination := t.covered.addr a })
      else .error (.cannotMoveAlone r) := by
  have hsame :
      ((t.setRegion r { t.regions.get r with destination := t.covered.addr a }).regions.get
        r).dataWords = (t.regions.get r).dataWords := by
    rw [ht.get_setRegion_self hr]
    rfl
  rw [packRegions, Laid.update_pure hr, ok_bind, Laid.region_eq (by exact hr), ok_bind]
  dsimp only
  rw [hsame, if_neg hdata, add_bytes_addr ht hwords, ok_bind, if_pos hpast,
    ht.get_setRegion_self hr]
  by_cases hpartial : (t.regions.get r).partialWords = 0
  · rw [if_neg (not_not.2 hpartial), if_pos hpartial]
    rfl
  · rw [if_pos hpartial, if_neg hpartial]
    rfl

section

variable (ht : t.Laid)
  (hdata : ∀ r, r < t.geometry.regionCount → (t.regions.get r).dataWords ≤ t.geometry.regionWords)
include ht hdata

/-- As long as the data fits, region by region is planned. -/
lemma packRegions_upTo (hk : k ≤ first) (h1 : first ≤ r) (hr : r ≤ t.geometry.regionCount)
    (hfits : t.Fits k first r targetEnd) (rest : ℕ) :
    ∃ t', t.PlansExactly t' k first r
      ∧ packRegions targetEnd (r - first + rest) first (t.covered.addr (t.placedAt k first first)) t
        = packRegions targetEnd rest r (t.covered.addr (t.placedAt k first r)) t' := by
  have hsum : first + (r - first) = r := by omega
  have hcons : t.Consecutive (t.placedAt k first) first r := consecutive_placedAt hdata hr
  have hroom : t.placedAt k first r ≤ t.covered.words := by
    rw [ht.covered_words]
    exact (placedAt_le hcons hk h1 (le_refl r)).trans (Nat.mul_le_mul_right _ hr)
  obtain ⟨t', hpacked, hsplit⟩ : ∃ t', t.Packed t' (t.placedAt k first) first (first + (r - first))
      ∧ packRegions targetEnd (r - first + rest) first (t.covered.addr (t.placedAt k first first)) t
        = _ :=
    packRegions_eq first rest ht (hsum.symm ▸ hcons) (by omega) (hsum.symm ▸ hroom)
      (fun q hq1 hq2 hpos => hfits.addr_le hcons hq1 (by omega) hpos)
  rw [hsum] at hpacked hsplit
  exact ⟨t', hpacked.plansExactly hcons hk hr, hsplit⟩

/-- Data that fits is planned as a whole. -/
lemma packRegions_of_fits (hk : k ≤ first) (hlast : last ≤ t.geometry.regionCount)
    (hfits : t.Fits k first last targetEnd) :
    ∃ t', packRegions targetEnd (last - first) first (t.covered.addr (t.placedAt k first first)) t
        = .ok (.fits (t.covered.addr (t.placedAt k first last)), t')
      ∧ t.PlansExactly t' k first last := by
  by_cases hle : first ≤ last
  · obtain ⟨t', hplans, hsplit⟩ := packRegions_upTo ht hdata hk hle hlast hfits 0
    exact ⟨t', hsplit, hplans⟩
  · have hnone : t.placedAt k first last = t.placedAt k first first := by
      rw [placedAt_first, placedAt, dataBefore, Finset.Ico_eq_empty (by omega), Finset.sum_empty,
        Nat.add_zero]
    have hpacked : t.Packed t (t.placedAt k first) first last := .of_le t _ (by omega)
    refine ⟨t, ?_, hpacked.plansExactly (consecutive_placedAt hdata hlast) hk hlast⟩
    rw [show last - first = 0 by omega, hnone]
    rfl

/-- The first region that does not fit ends the packing. -/
lemma packRegions_of_not_fits (hk : k ≤ first) (h1 : first ≤ r) (h2 : r < last)
    (hlast : last ≤ t.geometry.regionCount) (hfits : t.Fits k first r targetEnd)
    (hnot : ¬t.Fits k first (r + 1) targetEnd) :
    ((t.regions.get r).partialWords = 0 →
      ∃ t', packRegions targetEnd (last - first) first (t.covered.addr (t.placedAt k first first)) t
          = .ok (.stopped (t.covered.addr (t.placedAt k first r)) (t.regionStart r), t')
        ∧ t.PlansExactly t' k first r)
    ∧ ((t.regions.get r).partialWords ≠ 0 →
      packRegions targetEnd (last - first) first (t.covered.addr (t.placedAt k first first)) t
        = .error (.cannotMoveAlone r)) := by
  have hr : r < t.geometry.regionCount := by omega
  obtain ⟨t', hplans, hsplit⟩ := packRegions_upTo ht hdata hk h1 hr.le hfits (last - (r + 1) + 1)
  obtain ⟨hwords, hpast⟩ := not_fits_succ h1 hfits hnot
  have hsizes := hplans.sizes r hr
  have hplaced :=
    placedAt_le (k := k) (consecutive_placedAt hdata hlast) hk (show first ≤ r + 1 by omega) h2
  have hroom : t.placedAt k first (r + 1) ≤ t.covered.words := by
    rw [ht.covered_words]
    exact hplaced.trans (Nat.mul_le_mul_right _ (by omega))
  rw [placedAt_succ t k h1] at hroom hpast
  have hstop : packRegions targetEnd (last - (r + 1) + 1) r
      (t'.covered.addr (t.placedAt k first r)) t' = _ :=
    packRegions_stop (hplans.shape.laid ht) (hplans.shape.geometry ▸ hr) (hsizes.dataWords ▸ hwords)
      (by rw [hplans.shape.covered, hsizes.dataWords]; exact hroom)
      (by rw [hplans.shape.covered, hsizes.dataWords]; exact hpast)
  rw [hplans.shape.covered, hsizes.partialWords] at hstop
  rw [show last - first = r - first + (last - (r + 1) + 1) by omega, hsplit, hstop]
  constructor
  · intro hpartial
    refine ⟨_, ?_, hplans.setDestination ht hr (le_refl r) (t.covered.addr (t.placedAt k first r))⟩
    rw [if_pos hpartial, Laid.regionStart_eq, Laid.regionStart_eq, hplans.shape.covered,
      hplans.shape.geometry]
  · intro hpartial
    rw [if_neg hpartial]

end

/-- Packing the regions between any two addresses to a region start at or below them.  All that fits
is planned; the first region that does not fit ends the packing, and must not start inside of an
object. -/
theorem summarize_exact (ht : t.Laid)
    (hdata : ∀ r, r < t.geometry.regionCount → (t.regions.get r).dataWords ≤ t.geometry.regionWords)
    (htarget : t.regionStart k ≤ source) (hsource : source ≤ t.covered.start + t.covered.size)
    (hsourceEnd : t.covered.start ≤ sourceEnd)
    (hsourceEnd' : sourceEnd ≤ t.covered.start + t.covered.size) :
    (t.Fits k (t.regionAt source) (t.regionsBelow sourceEnd) targetEnd →
      ∃ t', t.summarize (t.regionStart k) targetEnd source sourceEnd
          = .ok (.fits (t.covered.addr
            (t.placedAt k (t.regionAt source) (t.regionsBelow sourceEnd))), t')
        ∧ t.PlansExactly t' k (t.regionAt source) (t.regionsBelow sourceEnd))
    ∧ (¬t.Fits k (t.regionAt source) (t.regionsBelow sourceEnd) targetEnd →
      ∃ r, t.regionAt source ≤ r ∧ r < t.regionsBelow sourceEnd
        ∧ t.Fits k (t.regionAt source) r targetEnd ∧ ¬t.Fits k (t.regionAt source) (r + 1) targetEnd
        ∧ ((t.regions.get r).partialWords = 0 →
          ∃ t', t.summarize (t.regionStart k) targetEnd source sourceEnd
              = .ok (.stopped (t.covered.addr (t.placedAt k (t.regionAt source) r))
                (t.regionStart r), t')
            ∧ t.PlansExactly t' k (t.regionAt source) r)
        ∧ ((t.regions.get r).partialWords ≠ 0 →
          t.summarize (t.regionStart k) targetEnd source sourceEnd
            = .error (.cannotMoveAlone r))) := by
  have hW := t.geometry.regionBytes_pos
  have hstart : t.covered.start ≤ source := by
    rw [regionStart] at htarget
    omega
  have hk : k ≤ t.regionAt source := by
    rw [regionAt, Nat.le_div_iff_mul_le hW]
    rw [regionStart] at htarget
    omega
  have hlast : t.regionsBelow sourceEnd ≤ t.geometry.regionCount := by
    rw [regionsBelow, upTo_le_iff hW, ← Geometry.coveredBytes, ← ht.size_eq]
    omega
  have heq : t.summarize (t.regionStart k) targetEnd source sourceEnd
      = packRegions targetEnd (t.regionsBelow sourceEnd - t.regionAt source) (t.regionAt source)
          (t.covered.addr (t.placedAt k (t.regionAt source) (t.regionAt source))) t := by
    rw [summarize, ht.regionUpTo_eq hsourceEnd hsourceEnd', ok_bind,
      ht.regionOf_eq hstart hsource, ok_bind, placedAt_first, Laid.regionStart_eq]
    rfl
  rw [heq]
  refine ⟨packRegions_of_fits ht hdata hk hlast, fun hnot => ?_⟩
  have hle : t.regionAt source ≤ t.regionsBelow sourceEnd := by
    by_contra hgt
    exact hnot (Or.inl (by rw [dataBefore, Finset.Ico_eq_empty (by omega), Finset.sum_empty]))
  obtain ⟨r, h1, h2, hfits, hnext⟩ := exists_change
    (P := fun r => t.Fits k (t.regionAt source) r targetEnd) hle (t.fits_first k _ targetEnd) hnot
  exact ⟨r, h1, h2, hfits, hnext, packRegions_of_not_fits ht hdata hk h1 h2 hlast hfits hnext⟩

/-- Eight regions of 64 words, of which the first three have 40 words of data each. -/
def threeParts : RegionTable :=
  let part : Region := { state := 40 }
  (((RegionTable.empty ⟨4096, 4096⟩ (.ofLogs 6 4 8 (Nat.le_add_right 4 2))).setRegion 0
    part).setRegion 1 part).setRegion 2 part

/-- The third region does not fit into 100 words. -/
theorem summarize_exact_threeParts :
    ∃ t', threeParts.summarize 4096 (4096 + 8 * 100) 4096 (4096 + 8 * 192)
        = .ok (.stopped (4096 + 8 * 80) (4096 + 8 * 128), t')
      ∧ threeParts.PlansExactly t' 0 0 2 := by
  have ht : threeParts.Laid :=
    ((((laid_empty (by decide) (by decide) (by decide) (by decide)).setRegion 0 _).setRegion 1
      _).setRegion 2 _)
  obtain ⟨r, -, h2, -, hnot, hmoves, -⟩ := (summarize_exact ht (by decide)
    (show threeParts.regionStart 0 ≤ 4096 by decide) (by decide)
    (show threeParts.covered.start ≤ 4096 + 8 * 192 by decide) (by decide)).2
    (show ¬threeParts.Fits 0 _ _ (4096 + 8 * 100) by decide)
  have hr : r < 3 := h2
  obtain rfl : r = 2 := by
    interval_cases r
    · exact absurd (by decide) hnot
    · exact absurd (by decide) hnot
    · rfl
  exact hmoves (by decide)

end RegionTable

end MarkCompact
