import Mathlib.Algebra.Order.BigOperators.Group.Finset
import MarkCompact.Proofs.ExactPacking
import MarkCompact.Proofs.PlanSearches

/-!
# Where the searches over a plan split a space

A space that is planned into itself from its bottom is packed to the left, so that a region moves by
as many words as the regions in front of it have without data (`Packed.destination_add`).  This
number grows from region to region, and it is zero as long as the regions are full.  Hence both
searches by halves split the regions that start below the top: one in front of the first region with
dead space to its left or in itself, the other where a budget of dead words is used up.

Main statements: `firstDeadSpace_least` and `deadWoodLimit_splits`.
-/

namespace MarkCompact

namespace RegionTable

variable {t t' : RegionTable} {beg first found hi last q r stop : ℕ}

/-! ## Words without data -/

/-- The words without data in the regions from `first` up to, not including, `r`. -/
def deadBefore (t : RegionTable) (first r : ℕ) : ℕ :=
  ∑ q ∈ Finset.Ico first r, (t.geometry.regionWords - (t.regions.get q).dataWords)

lemma deadBefore_mono (t : RegionTable) (first : ℕ) (hqr : q ≤ r) :
    t.deadBefore first q ≤ t.deadBefore first r :=
  Finset.sum_le_sum_of_subset (Finset.Ico_subset_Ico_right hqr)

section

variable (hcons : t.Consecutive (t.placedAt first first) first last)
include hcons

/-- A word in front of a region has data, or it has none. -/
lemma placedAt_add_deadBefore (h1 : first ≤ r) (h2 : r ≤ last) :
    t.placedAt first first r + t.deadBefore first r = r * t.geometry.regionWords := by
  have hwords : t.dataBefore first r + t.deadBefore first r
      = (r - first) * t.geometry.regionWords := by
    calc t.dataBefore first r + t.deadBefore first r
        = ∑ q ∈ Finset.Ico first r, ((t.regions.get q).dataWords
            + (t.geometry.regionWords - (t.regions.get q).dataWords)) := Finset.sum_add_distrib.symm
      _ = (r - first) * t.geometry.regionWords := by
        rw [Finset.sum_const_nat fun q hq => Nat.add_sub_cancel' (hcons.le q (Finset.mem_Ico.1 hq).1
          ((Finset.mem_Ico.1 hq).2.trans_le h2)), Nat.card_Ico]
  rw [placedAt, Nat.add_assoc, hwords, ← Nat.add_mul, Nat.add_sub_cancel' h1]

lemma deadBefore_eq_zero_iff (h2 : r ≤ last) : t.deadBefore first r = 0 ↔ t.FullUpTo first r := by
  rw [deadBefore, Finset.sum_eq_zero_iff]
  refine forall_congr' fun q => ⟨fun h h3 h4 => ?_, fun h hq => ?_⟩
  · exact le_antisymm (hcons.le q h3 (h4.trans_le h2))
      (Nat.sub_eq_zero_iff_le.1 (h (Finset.mem_Ico.2 ⟨h3, h4⟩)))
  · rw [h (Finset.mem_Ico.1 hq).1 (Finset.mem_Ico.1 hq).2, Nat.sub_self]

end

/-! ## Data that is packed to the front of its own regions -/

lemma Packed.fullUpTo_iff {dest : ℕ → ℕ} (hpacked : t.Packed t' dest first last)
    (h2 : r ≤ t.geometry.regionCount) :
    t'.FullUpTo first r ↔ t.FullUpTo first r := by
  refine forall_congr' fun q => forall_congr' fun _ => forall_congr' fun h4 => ?_
  rw [(hpacked.sizes q (by omega)).dataWords, hpacked.shape.geometry]

section

variable (hpacked : t.Packed t' (t.placedAt first first) first last)
  (hcons : t.Consecutive (t.placedAt first first) first last)
include hpacked hcons

/-- A region moves by the words without data in front of it. -/
lemma Packed.destination_add (h1 : first ≤ r) (h2 : r < last) :
    (t'.regions.get r).destination + 8 * t.deadBefore first r = t'.regionStart r := by
  have hsplit := placedAt_add_deadBefore hcons h1 h2.le
  rw [hpacked.destination r h1 h2, hpacked.shape.regionStart_eq, Laid.regionStart_eq, ← hsplit,
    Extent.addr_eq, Extent.addr_eq]
  omega

variable (hlast : last ≤ t.geometry.regionCount)
include hlast

lemma Packed.packsLeft (hhi : hi < last) : t'.PacksLeft first hi := by
  have hcount := hpacked.shape.geometry ▸ hlast
  refine ⟨fun r h1 h2 => ⟨by omega, ?_⟩, fun r h1 h2 => ?_⟩
  · rw [← Laid.regionStart_eq, ← hpacked.destination_add hcons h1 (by omega)]
    exact Nat.le_add_right ..
  · rw [hpacked.fullUpTo_iff (by omega), ← deadBefore_eq_zero_iff hcons (by omega),
      ← Laid.regionStart_eq, ← hpacked.destination_add hcons h1 (by omega)]
    omega

lemma Packed.deadToLeft_eq (h1 : first ≤ r) (h2 : r < last) :
    t'.deadToLeft r = .ok (t.deadBefore first r) := by
  obtain ⟨hcount, hmoves⟩ := (hpacked.packsLeft hcons hlast h2).moves r h1 le_rfl
  rw [RegionTable.deadToLeft_eq hcount hmoves, ← hpacked.destination_add hcons h1 h2, bytesPerWord,
    Nat.add_sub_cancel_left, Nat.mul_div_cancel_left _ (by decide)]

end

/-! ## The least region with dead space -/

/-- The regions from `beg` up to, not including, `stop` that have dead space to their left or are
not full. -/
def deadSpaceIn (t : RegionTable) (beg stop : ℕ) : Set ℕ :=
  {r | t.DeadToTheLeft r ∨ ¬t.IsFull r} ∩ Set.Ico beg stop

/-- Region `found` is the least one from `beg` up to, not including, `stop` with dead space, and the
last one if there is none. -/
structure FindsDeadSpace (t : RegionTable) (beg stop found : ℕ) : Prop where
  of_empty : t.deadSpaceIn beg stop = ∅ → found = stop - 1
  of_nonempty : (t.deadSpaceIn beg stop).Nonempty → IsLeast (t.deadSpaceIn beg stop) found

/-- Among regions that are packed to the left, a search by halves ends at the least one. -/
lemma PacksLeft.findsDeadSpace (ht : t.PacksLeft beg (stop - 1)) (hlt : beg < stop)
    (h : Halving t.DeadToTheLeft t.IsFull beg (stop - 1) found) :
    t.FindsDeadSpace beg stop found := by
  obtain ⟨h1, h2, hfull, hnext⟩ := ht.halving (by omega) h
  have hbefore : ∀ r ∈ t.deadSpaceIn beg stop, found ≤ r := by
    rintro r ⟨hr, h3, h4⟩
    by_contra hlow
    rcases hr with hdead | hnot
    · exact (ht.not_dead_iff h3 (Nat.le_sub_one_of_lt h4)).2 (hfull.mono (by omega)) hdead
    · exact hnot (hfull r h3 (by omega))
  -- In front of the last region, the search ends at a region that is not full.
  have hinner : found < stop - 1 → found ∈ t.deadSpaceIn beg stop := fun hinner =>
    ⟨Or.inr fun hself => hnext hinner (hfull.succ hself), h1, by omega⟩
  constructor
  · intro hempty
    by_contra hne
    exact Set.eq_empty_iff_forall_notMem.1 hempty found (hinner (by omega))
  · rintro ⟨r, hr⟩
    refine ⟨?_, hbefore⟩
    rcases h2.eq_or_lt with heq | hlt
    · rwa [heq, ← le_antisymm (Nat.le_sub_one_of_lt hr.2.2) (heq ▸ hbefore r hr)]
    · exact hinner hlt

lemma lt_regionsBelow_iff (t : RegionTable) (addr r : ℕ) :
    r < t.regionsBelow addr ↔ t.regionStart r < addr := by
  rw [regionsBelow, lt_upTo_iff t.geometry.regionBytes_pos, regionStart]
  omega

end RegionTable

/-! ## A space that is planned into itself -/

/-- The space takes the regions of the table from `first` up to, not including, `last`. -/
structure Space.Occupies (s : Space) (t : RegionTable) (first last : ℕ) : Prop where
  bottom_eq : s.bottom = t.regionStart first
  limit_eq : s.limit = t.regionStart last
  bottom_le : s.bottom ≤ s.top
  top_le : s.top ≤ s.limit
  last_le : last ≤ t.geometry.regionCount

namespace Space.Occupies

variable {t : RegionTable} {s : Space} {first last : ℕ} (hs : s.Occupies t first last)
include hs

lemma le_regionsBelow : first ≤ t.regionsBelow s.top := by
  have hbottom := hs.bottom_eq ▸ hs.bottom_le
  rw [RegionTable.regionStart] at hbottom
  calc first = upTo t.geometry.regionBytes (first * t.geometry.regionBytes) :=
    (upTo_mul t.geometry.regionBytes_pos first).symm
    _ ≤ t.regionsBelow s.top := upTo_mono t.geometry.regionBytes_pos (by omega)

lemma regionsBelow_le : t.regionsBelow s.top ≤ last := by
  have htop := hs.limit_eq ▸ hs.top_le
  rw [RegionTable.regionStart] at htop
  rw [RegionTable.regionsBelow, upTo_le_iff t.geometry.regionBytes_pos]
  omega

variable (hdata : ∀ r, first ≤ r → r < last → (t.regions.get r).dataWords ≤ t.geometry.regionWords)
include hdata

lemma consecutive : t.Consecutive (t.placedAt first first) first (t.regionsBelow s.top) where
  next _ h1 _ := t.placedAt_succ first h1
  le r h1 h2 := hdata r h1 (h2.trans_le hs.regionsBelow_le)

/-- All data of the space fits into it. -/
lemma summarize_eq (ht : t.Laid) :
    ∃ t', t.summarize s.bottom s.limit s.bottom s.top
        = .ok (.fits (t.covered.addr (t.placedAt first first (t.regionsBelow s.top))), t')
      ∧ t.Packed t' (t.placedAt first first) first (t.regionsBelow s.top) := by
  have hcons := hs.consecutive hdata
  have hfirst := hs.le_regionsBelow
  have hbelow := hs.regionsBelow_le
  have hlast := hs.last_le
  have hsum : first + (t.regionsBelow s.top - first) = t.regionsBelow s.top := by omega
  have hplaced : ∀ r, first ≤ r → r ≤ t.regionsBelow s.top →
      t.placedAt first first r ≤ last * t.geometry.regionWords :=
    fun r h1 h2 => (RegionTable.placedAt_le hcons le_rfl h1 h2).trans
      (Nat.mul_le_mul_right _ (h2.trans hbelow))
  have hroom : last * t.geometry.regionWords ≤ t.covered.words :=
    ht.covered_words ▸ Nat.mul_le_mul_right _ hlast
  have hbottom : first * t.geometry.regionWords ≤ t.covered.words :=
    (t.placedAt_first first first).symm.trans_le ((hplaced first le_rfl hfirst).trans hroom)
  obtain ⟨t', hpacked, hpack⟩ : ∃ t',
      t.Packed t' (t.placedAt first first) first (first + (t.regionsBelow s.top - first))
      ∧ RegionTable.packRegions s.limit (t.regionsBelow s.top - first) first
          (t.covered.addr (t.placedAt first first first)) t = _ :=
    RegionTable.packRegions_eq first 0 ht (hsum.symm ▸ hcons) (by omega)
      (hsum.symm ▸ (hplaced _ hfirst le_rfl).trans hroom) fun q h1 h2 _ => by
        rw [hs.limit_eq, RegionTable.Laid.regionStart_eq, Extent.addr_le_addr]
        exact hplaced (q + 1) (by omega) (by omega)
  rw [hsum] at hpacked hpack
  -- The top lies in the covered range.
  have hlow : t.covered.start ≤ s.top := (Nat.le_add_right ..).trans (hs.bottom_eq ▸ hs.bottom_le)
  have hhigh : s.top ≤ t.covered.start + t.covered.size := by
    rw [← ht.addr_words]
    refine (hs.limit_eq ▸ hs.top_le).trans ?_
    rwa [RegionTable.Laid.regionStart_eq, Extent.addr_le_addr]
  refine ⟨t', ?_, hpacked⟩
  rw [RegionTable.summarize, ht.regionUpTo_eq hlow hhigh, ok_bind, hs.bottom_eq,
    RegionTable.Laid.regionStart_eq, ht.regionOf_addr hbottom, ok_bind,
    Nat.mul_div_cancel _ t.geometry.regionWords_pos, ← t.placedAt_first first]
  exact hpack

end Space.Occupies

namespace RegionTable

variable {t : RegionTable} {s : Space} {first last : ℕ}

/-- Eight regions of 64 words.  The first two are full, the third one has 40 words of data and the
fourth one 24. -/
def twoFull : RegionTable :=
  ((((RegionTable.empty ⟨4096, 4096⟩ (.ofLogs 6 5 8 (Nat.le_succ 5))).setRegion 0
    { state := 64 }).setRegion 1
    { state := 64 }).setRegion 2 { state := 40 }).setRegion 3 { state := 24 }

lemma laid_twoFull : twoFull.Laid :=
  ((((laid_empty (by decide) (by decide) (by decide) (by decide)).setRegion 0 _).setRegion 1
    _).setRegion 2 _).setRegion 3 _

/-- A space over all of them, the fifth one of which has the top. -/
def twoFullSpace : Space :=
  .ofConfig ⟨"old", 4096, 8192, 4096 + 8 * 300, 5⟩

lemma twoFullSpace_occupies : twoFullSpace.Occupies twoFull 0 8 :=
  ⟨rfl, rfl, by decide, by decide, le_rfl⟩

variable (ht : t.Laid) (hs : s.Occupies t first last)
  (hdata : ∀ r, first ≤ r → r < last → (t.regions.get r).dataWords ≤ t.geometry.regionWords)

include ht hs hdata in
/-- A space whose regions have room for their data is planned into itself from its bottom.  Then the
search for dead space from its first region on, up to some region below its top, ends at the least
region with dead space.  The regions in front of it stay, and are full. -/
theorem firstDeadSpace_least :
    ∃ newTop t', t.summarize s.bottom s.limit s.bottom s.top = .ok (.fits newTop, t')
      ∧ ∀ stop, first < stop → (∀ r, first ≤ r → r < stop → t.regionStart r < s.top) →
        ∃ found, Halving t'.DeadToTheLeft t'.IsFull first (stop - 1) found
          ∧ t'.firstDeadSpace first stop = .ok found
          ∧ t'.FindsDeadSpace first stop found
          ∧ ∀ r, first ≤ r → r < found →
            (t'.regions.get r).destination = t'.regionStart r ∧ t'.IsFull r := by
  obtain ⟨t', heq, hpacked⟩ := hs.summarize_eq hdata ht
  refine ⟨_, t', heq, fun stop hlt htop => ?_⟩
  have hleft : t'.PacksLeft first (stop - 1) :=
    hpacked.packsLeft (hs.consecutive hdata) (hs.regionsBelow_le.trans hs.last_le)
    ((t.lt_regionsBelow_iff s.top (stop - 1)).2 (htop (stop - 1) (by omega) (by omega)))
  obtain ⟨found, hends⟩ := Halving.ends t'.DeadToTheLeft t'.IsFull first (stop - 1)
  obtain ⟨h1, h2, hfull, -⟩ := hleft.halving (by omega) hends
  refine ⟨found, hends, firstDeadSpace_of_halving hleft.moves hlt hends,
    hleft.findsDeadSpace hlt hends,
    fun r h3 h4 => ⟨?_, hfull r h3 h4⟩⟩
  rw [Laid.regionStart_eq]
  exact (hleft.stays_iff r h3 (by omega)).2 (hfull.mono h4.le)

/-- Behind two full regions the third one is found. -/
theorem firstDeadSpace_least_twoFull :
    ∃ newTop t', twoFull.summarize 4096 8192 4096 (4096 + 8 * 300) = .ok (.fits newTop, t')
      ∧ t'.firstDeadSpace 0 5 = .ok 2 ∧ t'.FindsDeadSpace 0 5 2 := by
  obtain ⟨newTop, t', heq, hsearch⟩ :=
    firstDeadSpace_least laid_twoFull twoFullSpace_occupies (by decide)
  obtain ⟨found, -, hfound, hleast, -⟩ := hsearch 5 (by decide) (by decide)
  have htwo : t'.firstDeadSpace 0 5 = .ok 2 := by
    cases heq
    rfl
  cases htwo.symm.trans hfound
  exact ⟨newTop, t', heq, htwo, hleast⟩

include ht hs hdata in
/-- In the same plan, the search for the end of a budget ends, over any regions of the space that
start below its top, at one of them: those in front of it have at most so many dead words to their
left, and those behind it at least as many. -/
theorem deadWoodLimit_splits :
    ∃ newTop t', t.summarize s.bottom s.limit s.bottom s.top = .ok (.fits newTop, t')
      ∧ ∀ beg stop budget, first ≤ beg → beg < stop →
        (∀ r, beg ≤ r → r < stop → t.regionStart r < s.top) →
        ∃ found, Halving (budget < t.deadBefore first ·) (t.deadBefore first · < budget) beg
          (stop - 1) found
          ∧ t'.deadWoodLimit beg stop budget = .ok found ∧ beg ≤ found ∧ found < stop
          ∧ (∀ r, beg ≤ r → r < stop → t'.deadToLeft r = .ok (t.deadBefore first r))
          ∧ (∀ r, beg ≤ r → r < found → t.deadBefore first r ≤ budget)
          ∧ ∀ r, found < r → r < stop → budget ≤ t.deadBefore first r := by
  obtain ⟨t', heq, hpacked⟩ := hs.summarize_eq hdata ht
  refine ⟨_, t', heq, fun beg stop budget hbeg hlt htop => ?_⟩
  have hdead : ∀ r, beg ≤ r → r < stop → t'.deadToLeft r = .ok (t.deadBefore first r) :=
    fun r h1 h2 =>
    hpacked.deadToLeft_eq (hs.consecutive hdata) (hs.regionsBelow_le.trans hs.last_le)
      (hbeg.trans h1)
      ((t.lt_regionsBelow_iff s.top r).2 (htop r h1 h2))
  obtain ⟨found, hends⟩ :=
    Halving.ends (budget < t.deadBefore first ·) (t.deadBefore first · < budget) beg (stop - 1)
  obtain ⟨h1, h2, hbefore, hbehind⟩ :=
    splits_of_halving (fun q r _ hqr _ => t.deadBefore_mono first hqr) (by omega) hends
  exact ⟨found, hends, deadWoodLimit_of_halving hdead hlt hends, h1, by omega, hdead, hbefore,
    fun r h3 h4 => hbehind r h3 (by omega)⟩

/-- A budget of 24 words is used up exactly where the fourth region starts. -/
theorem deadWoodLimit_splits_twoFull :
    ∃ newTop t', twoFull.summarize 4096 8192 4096 (4096 + 8 * 300) = .ok (.fits newTop, t')
      ∧ t'.deadWoodLimit 0 5 24 = .ok 3 ∧ (∀ r, r < 3 → twoFull.deadBefore 0 r ≤ 24)
      ∧ 24 ≤ twoFull.deadBefore 0 4 := by
  obtain ⟨newTop, t', heq, hsearch⟩ :=
    deadWoodLimit_splits laid_twoFull twoFullSpace_occupies (by decide)
  obtain ⟨found, -, hfound, -, -, -, hbefore, hbehind⟩ :=
    hsearch 0 5 24 le_rfl (by decide) (by decide)
  have hthree : t'.deadWoodLimit 0 5 24 = .ok 3 := by
    cases heq
    rfl
  cases hthree.symm.trans hfound
  exact ⟨newTop, t', heq, hthree, fun r hr => hbefore r (Nat.zero_le r) hr,
    hbehind 4 (by decide) (by decide)⟩

end RegionTable

end MarkCompact
