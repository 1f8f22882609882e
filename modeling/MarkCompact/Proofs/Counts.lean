import Mathlib.Data.Finset.Card
import Mathlib.Data.Finset.Range
import MarkCompact.Proofs.Plans

/-!
# Destination counts

The data of a region goes to one or two regions.  `z.Feeds W objs r q` says that some of the data of
region `r` goes to region `q`, and `z.owed` counts the regions other than `r` that have not taken it
yet: the number that the count of region `r` stands for until the region is claimed.

Main statements: `feeds_iff`, `owed_eq_touched` (at first everything is owed), `owed_take` (each
destination takes its data once).
-/

namespace MarkCompact

variable {objs : List Span} {W q r w : ℕ} {z : Zone} {taken taken' : ℕ → Prop}

/-! ## Where the data of a region goes -/

namespace Zone

/-- Some of the data of region `r` goes to region `q`. -/
def Feeds (z : Zone) (W : ℕ) (objs : List Span) (r q : ℕ) : Prop :=
  Meets W (z.packed W objs (r * W)) (z.packed W objs ((r + 1) * W)) q

/-- A region feeds another exactly if one of its live words goes there. -/
lemma feeds_iff (hW : 0 < W) (hr : z.keep ≤ r) : z.Feeds W objs r q
    ↔ ∃ w, r * W ≤ w ∧ w < r * W + W ∧ Live objs w ∧ z.packed W objs w / W = q := by
  have hkeep := Nat.mul_le_mul_right W hr
  constructor
  · rintro ⟨h1, h2, h3⟩
    -- The first word of the data that lies in region `q` is the place of the word that is looked
    -- for.
    obtain ⟨w, hw1, hw2, hlive, heq⟩ :=
      z.exists_live_packed (y := max (z.packed W objs (r * W)) (q * W))
      (le_trans (z.le_packed ..) (le_max_left ..)) (max_lt h3 h2)
    refine ⟨w, ?_, by rw [Nat.succ_mul] at hw2; exact hw2, hlive, ?_⟩
    · by_contra hlt
      have := z.packed_lt hw1 hlive (not_le.1 hlt)
      omega
    · rw [heq]
      exact div_eq_of_bounds (le_max_right ..) (by omega)
  · rintro ⟨w, hw1, hw2, hlive, rfl⟩
    have hlow := z.packed_mono W objs hw1
    have hhigh :=
      z.packed_lt (le_trans hkeep hw1) hlive (show w < (r + 1) * W by rw [Nat.succ_mul]; exact hw2)
    obtain ⟨h1, h2⟩ := div_mul_bounds hW (z.packed W objs w)
    exact ⟨by omega, by omega, by omega⟩

/-- Data never goes to the right. -/
lemma Feeds.le (h : z.Feeds W objs r q) (hW : 0 < W) (hr : z.keep ≤ r) : q ≤ r := by
  obtain ⟨w, h1, h2, _, rfl⟩ := (feeds_iff hW hr).1 h
  have hle : z.packed W objs w ≤ w := z.packed_le (le_trans (Nat.mul_le_mul_right W hr) h1)
  rw [← Nat.lt_succ_iff]
  exact div_lt_of_lt_mul (by rw [Nat.succ_mul]; omega)

/-- Data goes behind the dense prefix. -/
lemma Feeds.keep_le (h : z.Feeds W objs r q) : z.keep ≤ q := by
  obtain ⟨h1, h2, h3⟩ := h
  have hle := z.le_packed W objs (r * W)
  by_contra hlt
  have := Nat.mul_le_mul_right W (show q + 1 ≤ z.keep by omega)
  rw [Nat.succ_mul] at this
  omega

lemma Feeds.dataOf_ne (h : z.Feeds W objs r q) (hr : z.keep ≤ r) : dataOf objs W r ≠ 0 :=
  (RegionTable.packed_lt_packed_iff hr).1 h.2.2

/-! ## What is owed -/

open Classical in
/-- The number of regions other than `r` that have not taken their data from it. -/
noncomputable def owed (z : Zone) (W : ℕ) (objs : List Span) (taken : ℕ → Prop) (r : ℕ) : ℕ :=
  ((Finset.range r).filter fun q => z.Feeds W objs r q ∧ ¬taken q).card

lemma owed_congr (h : ∀ q, q < r → z.Feeds W objs r q → (taken q ↔ taken' q)) :
    z.owed W objs taken r = z.owed W objs taken' r := by
  classical
  rw [owed, owed]
  congr 1
  refine Finset.filter_congr fun q hq => ?_
  have hiff := h q (Finset.mem_range.1 hq)
  tauto

lemma owed_mono (h : ∀ q, taken q → taken' q) : z.owed W objs taken' r ≤ z.owed W objs taken r := by
  classical
  refine Finset.card_le_card fun q hq => ?_
  simp only [Finset.mem_filter] at hq ⊢
  exact ⟨hq.1, hq.2.1, fun ht => hq.2.2 (h q ht)⟩

lemma owed_eq_zero_iff : z.owed W objs taken r = 0 ↔ ∀ q, q < r → z.Feeds W objs r q → taken q := by
  classical
  rw [owed, Finset.card_eq_zero, Finset.filter_eq_empty_iff]
  simp only [Finset.mem_range, not_and, not_not]

/-- A region that takes its data is owed nothing any more. -/
theorem owed_take (hq : q < r) (hfeeds : z.Feeds W objs r q) (hnot : ¬taken q)
    (h : ∀ q', taken' q' ↔ taken q' ∨ q' = q) :
    z.owed W objs taken r = z.owed W objs taken' r + 1 := by
  classical
  have hmem : q ∈ (Finset.range r).filter fun q => z.Feeds W objs r q ∧ ¬taken q := by
    simp only [Finset.mem_filter, Finset.mem_range]
    exact ⟨hq, hfeeds, hnot⟩
  rw [owed, owed, ← Finset.card_erase_add_one hmem]
  congr 1
  refine congrArg Finset.card ?_
  ext q'
  simp only [Finset.mem_erase, Finset.mem_filter, Finset.mem_range, h]
  tauto

/-- At first everything is owed. -/
theorem owed_eq_touched (hW : 0 < W) (hr : z.keep ≤ r) (h : ∀ q, ¬taken q) :
    z.owed W objs taken r = z.touched W objs r := by
  classical
  rw [touched]
  by_cases hdata : dataOf objs W r = 0
  · rw [if_pos hdata, owed_eq_zero_iff]
    exact fun q _ hfeeds => absurd hdata (hfeeds.dataOf_ne hr)
  have hlt : z.packed W objs (r * W) < z.packed W objs ((r + 1) * W) :=
    (RegionTable.packed_lt_packed_iff hr).2 hdata
  have hfirst : z.Feeds W objs r (z.packed W objs (r * W) / W) :=
    (meets_iff hW hlt).2 ⟨le_refl _, Nat.div_le_div_right (by omega)⟩
  have hlast : z.Feeds W objs r ((z.packed W objs ((r + 1) * W) - 1) / W) :=
    (meets_iff hW hlt).2 ⟨Nat.div_le_div_right (by omega), le_refl _⟩
  have hnext : (z.packed W objs ((r + 1) * W) - 1) / W ≤ z.packed W objs (r * W) / W + 1 := by
    have hle := dataOf_le objs W r
    have hsum := liveBelow_add_dataOf objs W r
    have hadd : z.packed W objs ((r + 1) * W) = _ :=
      z.packed_add (Nat.mul_le_mul_right W hr) (Nat.mul_le_mul_right W (Nat.le_add_right r 1))
    rw [show z.packed W objs ((r + 1) * W) = z.packed W objs (r * W) + dataOf objs W r by omega]
    exact last_le_succ_first hW (Nat.pos_of_ne_zero hdata) hle
  have hiff : ∀ q, z.Feeds W objs r q ↔ _ := fun q => meets_iff hW hlt
  have hset : (Finset.range r).filter (fun q => z.Feeds W objs r q ∧ ¬taken q)
      = ({z.packed W objs (r * W) / W,
        (z.packed W objs ((r + 1) * W) - 1) / W} : Finset ℕ).erase r := by
    ext q
    simp only [Finset.mem_filter, Finset.mem_range, Finset.mem_erase, Finset.mem_insert,
      Finset.mem_singleton, h, not_false_eq_true, and_true]
    constructor
    · rintro ⟨hq, hfeeds⟩
      have := (hiff q).1 hfeeds
      exact ⟨by omega, by omega⟩
    · rintro ⟨hq, rfl | rfl⟩
      · exact ⟨lt_of_le_of_ne (hfirst.le hW hr) hq, hfirst⟩
      · exact ⟨lt_of_le_of_ne (hlast.le hW hr) hq, hlast⟩
  have hlow := hfirst.le hW hr
  have hhigh := hlast.le hW hr
  have hmono := ((hiff _).1 hfirst).2
  rw [if_neg hdata, owed, hset, RegionTable.otherRegions]
  generalize z.packed W objs (r * W) / W = a at hlow hmono hnext ⊢
  generalize (z.packed W objs ((r + 1) * W) - 1) / W = b at hhigh hmono hnext ⊢
  by_cases hab : a = b
  · subst hab
    by_cases hra : r = a
    · simp [hra]
    · simp [hra]
  · have hra : r ≠ a := by omega
    by_cases hrb : r = b
    · subst hrb
      simp [hab]
    · simp [hra, hrb, hab]

end Zone

/-! ## Counts in the packed word -/

namespace Region

variable {a b : Region} {c : ℕ}

/-- The summary with another count. -/
def withCount (a : Region) (c : ℕ) : Region :=
  { a with state := packState c a.liveWords }

@[simp] lemma count_withCount (a : Region) (c : ℕ) : (a.withCount c).count = c :=
  count_packState a c

@[simp] lemma liveWords_withCount (a : Region) (c : ℕ) : (a.withCount c).liveWords = a.liveWords :=
  liveWords_packState a c

/-- The summary of a region that has been queued. -/
def queued (a : Region) : Region :=
  { a with pushed := true }

lemma count_queued (a : Region) : a.queued.count = a.count := rfl

lemma deferred_queued (a : Region) : a.queued.deferred = a.deferred := rfl

lemma blocksFilled_queued (a : Region) : a.queued.blocksFilled = a.blocksFilled := rfl

lemma deferred_withCount (a : Region) (c : ℕ) : (a.withCount c).deferred = a.deferred := rfl

lemma blocksFilled_withCount (a : Region) (c : ℕ) :
    (a.withCount c).blocksFilled = a.blocksFilled := rfl

lemma pushed_withCount (a : Region) (c : ℕ) : (a.withCount c).pushed = a.pushed := rfl

lemma notePushed_eq (h : a.pushed = false) : a.notePushed = .ok a.queued := by
  rw [notePushed, h]
  rfl

lemma state_eq (a : Region) : a.state = a.count * liveLimit + a.liveWords :=
  a.pack_unpack.symm

/-- The packed word is compared as its count is. -/
lemma le_state_iff : c * liveLimit ≤ a.state ↔ c ≤ a.count :=
  (Nat.le_div_iff_mul_le (by decide)).symm

lemma state_lt_iff : a.state < liveLimit ↔ a.count = 0 := by
  rw [← not_le, ← Nat.one_mul liveLimit, le_state_iff]
  omega

lemma isAvailable_iff : a.isAvailable = true ↔ a.count = 0 := by
  rw [isAvailable, decide_eq_true_iff, state_lt_iff]

lemma isClaimed_iff : a.isClaimed = true ↔ claimedCount ≤ a.count := by
  rw [isClaimed, decide_eq_true_iff, le_state_iff]

lemma isCompleted_iff : a.isCompleted = true ↔ completedCount ≤ a.count := by
  rw [isCompleted, decide_eq_true_iff, le_state_iff]

lemma decrement_eq (h1 : 0 < a.count) (h2 : a.count < claimedCount) :
    a.decrement = .ok (a.withCount (a.count - 1)) := by
  have hstate := a.state_eq
  have heq : a.state - liveLimit = packState (a.count - 1) a.liveWords := by
    rw [packState, Nat.sub_mul]
    have hone := Nat.mul_le_mul_right liveLimit h1
    omega
  rw [decrement, if_neg (mt le_state_iff.1 (not_le.2 h2)),
    if_neg (mt state_lt_iff.1 (by omega)), heq]
  rfl

lemma claim_eq (h : a.count = 0) : a.claim = (true, a.withCount claimedCount) := by
  have hstate := a.state_eq
  rw [h, Nat.zero_mul, Nat.zero_add] at hstate
  rw [claim, if_pos hstate]
  rfl

/-- An available region is queued as it is claimed. -/
lemma claim_notePushed_eq (h : a.count = 0) (hpushed : a.pushed = false) :
    a.claim.2.notePushed = .ok (a.withCount claimedCount).queued := by
  have hclaim : a.claim.2 = a.withCount claimedCount := by rw [claim_eq h]
  rw [hclaim]
  exact notePushed_eq hpushed

lemma claimAlone_eq :
    a.claimAlone = if a.count = 0 then (true, a.withCount claimedCount) else (false, a) := by
  by_cases h : a.count = 0
  · have hstate := a.state_eq
    rw [h, Nat.zero_mul, Nat.zero_add] at hstate
    rw [if_pos h, claimAlone, if_pos (isAvailable_iff.2 h), hstate]
    rfl
  · rw [if_neg h, claimAlone, if_neg fun havailable => h (isAvailable_iff.1 havailable)]

lemma complete_eq (h : a.count = claimedCount) : a.complete = .ok (a.withCount completedCount) := by
  rw [complete, if_neg (not_lt.2 (le_state_iff.2 h.ge)),
    if_neg (mt le_state_iff.1 (by rw [h]; decide))]
  rfl

/-- The summary `b` has the plan and the sizes of `a`. -/
structure SameLoad (a b : Region) : Prop where
  destination : b.destination = a.destination
  source : b.source = a.source
  partialWords : b.partialWords = a.partialWords
  liveWords : b.liveWords = a.liveWords

lemma SameLoad.refl (a : Region) : a.SameLoad a :=
  ⟨rfl, rfl, rfl, rfl⟩

lemma SameLoad.trans {c : Region} (h : a.SameLoad b) (h' : b.SameLoad c) : a.SameLoad c :=
  ⟨h'.destination.trans h.destination, h'.source.trans h.source,
    h'.partialWords.trans h.partialWords, h'.liveWords.trans h.liveWords⟩

lemma SameLoad.dataWords (h : a.SameLoad b) : b.dataWords = a.dataWords := by
  rw [Region.dataWords, Region.dataWords, h.partialWords, h.liveWords]

lemma sameLoad_queued (a : Region) : a.SameLoad a.queued :=
  ⟨rfl, rfl, rfl, rfl⟩

lemma sameLoad_withCount (a : Region) (c : ℕ) : a.SameLoad (a.withCount c) :=
  ⟨rfl, rfl, rfl, liveWords_withCount a c⟩

end Region

end MarkCompact
