import Mathlib.Algebra.BigOperators.Intervals
import Mathlib.Algebra.BigOperators.Group.List.Basic
import MarkCompact.Proofs.Accounting

/-!
# The words of a region, counted one by one

The sizes of a region are numbers of words: those of the objects that start in the region, and those
of the object that reaches in from an earlier one.  `Region.Measures` says so word by word, without
the ends of the objects, and is the same as `Region.Accounts` (`measures_iff_accounts`).

Main statement: `RegionTable.accountObjects_measures` (objects that are accounted in a cleared
table, in any order, are counted once).
-/

namespace MarkCompact

variable {objs os : List Span} {o : Span} {W r w n : ℕ}

/-! ## Counting words -/

/-- The number of words of region `r` that belong to the objects. -/
def wordsIn (objs : List Span) (W r : ℕ) : ℕ :=
  ((Finset.Ico (r * W) (r * W + W)).filter (Live objs)).card

/-- The objects that start in region `r`. -/
def startingIn (objs : List Span) (W r : ℕ) : List Span :=
  objs.filter fun o => o.start / W = r

/-- The objects that start in a region before `r`. -/
def startingBefore (objs : List Span) (W r : ℕ) : List Span :=
  objs.filter fun o => o.start / W < r

lemma live_startingIn :
    Live (startingIn objs W r) w ↔ ∃ o ∈ objs, o.start / W = r ∧ o.Covers w := by
  simp [Live, startingIn, and_assoc]

lemma live_startingBefore :
    Live (startingBefore objs W r) w ↔ ∃ o ∈ objs, o.start / W < r ∧ o.Covers w := by
  simp [Live, startingBefore, and_assoc]

/-- The words of a region are its live words. -/
lemma wordsIn_eq_dataOf (objs : List Span) (W r : ℕ) : wordsIn objs W r = dataOf objs W r := by
  have hmono := liveBelow_mono objs (Nat.le_add_right (r * W) W)
  have hsplit : (Finset.range (r * W + W)).filter (Live objs)
      = (Finset.range (r * W)).filter (Live objs) ∪ (Finset.Ico (r * W) (r * W + W)).filter
        (Live objs) := by
    rw [← Finset.filter_union, Finset.range_eq_Ico, Finset.range_eq_Ico,
      Finset.Ico_union_Ico_eq_Ico (Nat.zero_le _) (Nat.le_add_right _ _)]
  have hapart : Disjoint ((Finset.range (r * W)).filter (Live objs))
      ((Finset.Ico (r * W) (r * W + W)).filter (Live objs)) :=
    Finset.disjoint_filter_filter
      (Finset.range_eq_Ico _ ▸ Finset.Ico_disjoint_Ico_consecutive 0 (r * W) _)
  have hcard := congrArg Finset.card hsplit
  rw [Finset.card_union_of_disjoint hapart, ← Nat.count_eq_card_filter_range,
    ← Nat.count_eq_card_filter_range] at hcard
  rw [dataOf, wordsIn]
  simp only [liveBelow] at hmono ⊢
  omega

/-- An object has a word in the region and starts before it exactly if it reaches across the start
of the region. -/
lemma Span.crosses_iff (hpos : 0 < W) : o.Crosses (r * W) ↔ o.start / W < r ∧ r * W < o.past := by
  rw [Span.Crosses, Nat.div_lt_iff_lt_mul hpos]

/-- The words of the objects that start before a region are those that reach in. -/
lemma wordsIn_startingBefore (hsep : Separate objs) (hpos : 0 < W) :
    wordsIn (startingBefore objs W r) W r = partialOf objs W r := by
  have heq : (Finset.Ico (r * W) (r * W + W)).filter (Live (startingBefore objs W r))
      = Finset.Ico (r * W) (min (reach objs (r * W)) (r * W + W)) := by
    ext w
    simp only [Finset.mem_filter, Finset.mem_Ico, live_startingBefore]
    constructor
    · rintro ⟨⟨h1, h2⟩, o, ho, hbefore, hcov⟩
      have hcross : o.Crosses (r * W) :=
        (Span.crosses_iff hpos).2 ⟨hbefore, lt_of_le_of_lt h1 hcov.2⟩
      have hpast := hcov.2
      rw [reach_eq_of_crosses hsep ho hcross]
      omega
    · rintro ⟨h1, h2⟩
      rcases boundary_or_crosses hsep (r * W) with ⟨_, heq⟩ | ⟨o, ho, hcross, heq⟩
      · omega
      · have hstart := hcross.1
        exact ⟨⟨h1, by omega⟩, o, ho, ((Span.crosses_iff hpos).1 hcross).1, by omega, by omega⟩
  rw [wordsIn, heq, Nat.card_Ico, partialOf]

/-- Every live word of a region belongs to an object that starts in it or to one that starts before
it. -/
lemma wordsIn_startingIn (hsep : Separate objs) (hpos : 0 < W) :
    wordsIn (startingIn objs W r) W r + partialOf objs W r = dataOf objs W r := by
  have hsplit : (Finset.Ico (r * W) (r * W + W)).filter (Live objs)
      = (Finset.Ico (r * W) (r * W + W)).filter (Live (startingIn objs W r))
        ∪ (Finset.Ico (r * W) (r * W + W)).filter (Live (startingBefore objs W r)) := by
    ext w
    simp only [Finset.mem_union, Finset.mem_filter, Finset.mem_Ico, live_startingIn,
      live_startingBefore]
    constructor
    · rintro ⟨hw, o, ho, hcov⟩
      have hle : o.start / W ≤ r := Nat.lt_succ_iff.1 (div_lt_of_lt_mul (by
        have := hcov.1
        rw [Nat.succ_mul]
        omega))
      rcases hle.eq_or_lt with heq | hlt
      · exact Or.inl ⟨hw, o, ho, heq, hcov⟩
      · exact Or.inr ⟨hw, o, ho, hlt, hcov⟩
    · rintro (⟨hw, o, ho, _, hcov⟩ | ⟨hw, o, ho, _, hcov⟩)
      · exact ⟨hw, o, ho, hcov⟩
      · exact ⟨hw, o, ho, hcov⟩
  have hapart : Disjoint ((Finset.Ico (r * W) (r * W + W)).filter (Live (startingIn objs W r)))
      ((Finset.Ico (r * W) (r * W + W)).filter (Live (startingBefore objs W r))) := by
    rw [Finset.disjoint_filter]
    intro w _ hin hbefore
    obtain ⟨o, ho, heq, hcov⟩ := live_startingIn.1 hin
    obtain ⟨o', ho', hlt, hcov'⟩ := live_startingBefore.1 hbefore
    rw [hsep.eq_of_covers ho ho' hcov hcov'] at heq
    omega
  rw [← wordsIn_startingBefore hsep hpos, ← wordsIn_eq_dataOf]
  simp only [wordsIn]
  rw [hsplit, Finset.card_union_of_disjoint hapart]

/-- The data of all regions is that of all objects. -/
lemma sum_dataOf (hsep : Separate objs) (hpast : ∀ o ∈ objs, o.past ≤ n * W) :
    ∑ r ∈ Finset.range n, dataOf objs W r = (objs.map Span.words).sum := by
  have hsum : ∀ k, liveBelow objs (k * W) = ∑ r ∈ Finset.range k, dataOf objs W r := by
    intro k
    induction k with
    | zero => simp [liveBelow]
    | succ k ih => rw [Finset.sum_range_succ, ← ih, liveBelow_add_dataOf]
  have hall : (objs.filter fun o => 0 ≤ o.start ∧ o.past ≤ n * W) = objs :=
    List.filter_eq_self.2 fun o ho => by simpa using hpast o ho
  have htotal := liveBelow_eq_add_sum hsep (Nat.zero_le (n * W)) fun o ho =>
    Or.inl ⟨Nat.zero_le _, hpast o ho⟩
  rw [hall] at htotal
  rw [← hsum, htotal]
  simp [liveBelow]

/-! ## The sizes of a region -/

namespace Region

variable {a : Region}

/-- The sizes of the region are the numbers of its words that belong to objects that start in it,
and to the object that starts in an earlier region. -/
structure Measures (objs : List Span) (W r : ℕ) (a : Region) : Prop where
  liveWords_eq : a.liveWords = wordsIn (startingIn objs W r) W r
  partialWords_eq : a.partialWords = wordsIn (startingBefore objs W r) W r

theorem measures_iff_accounts (hsep : Separate objs) (hpos : 0 < W) :
    a.Measures objs W r ↔ a.Accounts objs W r := by
  have hsum := wordsIn_startingIn (r := r) hsep hpos
  have hbefore := wordsIn_startingBefore (r := r) hsep hpos
  constructor
  · rintro ⟨hlive, hpartial⟩
    refine ⟨hpartial.trans hbefore, ?_⟩
    rw [dataWords]
    omega
  · rintro ⟨hpartial, hdata⟩
    rw [dataWords] at hdata
    refine ⟨?_, hpartial.trans hbefore.symm⟩
    omega

/-- Only an object that reaches in from the left is recorded as the partial object. -/
lemma partialStart_account {addr : ℕ} (hcross : ¬o.Crosses (r * W)) :
    (a.account W addr o r).partialStart = a.partialStart := by
  rw [account, if_neg hcross]
  split <;> rfl

lemma partialStart_accountAll_of_boundary {e : Extent} (hnone : Boundary os (r * W)) :
    (a.accountAll W e os r).partialStart = a.partialStart := by
  induction os generalizing a with
  | nil => rfl
  | cons o rest ih =>
    have hrest := ih (a := a.account W (e.addr o.start) o r) fun o' ho' =>
      hnone o' (List.mem_cons_of_mem _ ho')
    exact hrest.trans (partialStart_account (hnone o List.mem_cons_self))

/-- Whatever else is accounted, before or after, the object that reaches in is recorded. -/
lemma partialStart_accountAll {e : Extent} (hsep : Separate os) (ho : o ∈ os)
    (hcross : o.Crosses (r * W)) :
    (a.accountAll W e os r).partialStart = e.addr o.start := by
  induction os generalizing a with
  | nil => exact absurd ho List.not_mem_nil
  | cons o' rest ih =>
    rcases List.mem_cons.1 ho with rfl | hin
    · have hnone : Boundary rest (r * W) := by
        intro o' ho' hcross'
        obtain ⟨h1, h2⟩ := hcross
        obtain ⟨h1', h2'⟩ := hcross'
        rcases hsep.apart_head ho' with hap | hap <;> omega
      refine (partialStart_accountAll_of_boundary hnone).trans ?_
      show (a.account W (e.addr o.start) o r).partialStart = _
      rw [account, if_pos hcross]
    · exact ih hsep.tail hin

end Region

/-! ## A cleared table -/

namespace RegionTable

variable {t t' : RegionTable}

/-- Every region of the table is empty. -/
def Cleared (t : RegionTable) : Prop :=
  ∀ r, t.regions.get r = {}

/-- A fresh table is cleared. -/
lemma cleared_empty (covered : Extent) (g : Geometry) : (RegionTable.empty covered g).Cleared :=
  fun _ => Table.get_fresh ..

/-- What the table holds of region `r` after the objects have been accounted. -/
structure Measured (t : RegionTable) (objs : List Span) (r : ℕ) : Prop where
  measures : (t.regions.get r).Measures objs t.geometry.regionWords r
  partialStart_eq : ∀ o ∈ objs, o.start / t.geometry.regionWords < r →
    r * t.geometry.regionWords < o.past →
    (t.regions.get r).partialStart = t.covered.addr o.start
  count_eq : (t.regions.get r).count = 0

/-- Objects that are accounted in a cleared table, one after the other, determine its regions. -/
lemma Laid.accountObjects_eq (ht : t.Laid) (hcleared : t.Cleared) (hsep : Separate os)
    (hpast : ∀ o ∈ os, o.past ≤ t.covered.words) :
    ∃ t', Heap.accountObjects (os.map (Span.run · t.covered)) t = .ok t' ∧ t.SameShape t' ∧ ∀ r,
      t'.Measured os r := by
  have hpos := t.geometry.regionWords_pos
  have hreverse : Separate (os.reverse ++ []) := by
    rw [List.append_nil]
    exact hsep.perm (List.reverse_perm os).symm
  have hblank : ∀ r, (t.regions.get r).Accounts [] t.geometry.regionWords r := fun r => by
    rw [hcleared r]
    exact Region.accounts_nil _ r
  obtain ⟨t', heq, hshape, _, hget⟩ := Heap.accountObjects_eq ht hreverse hpast fun o _ => hblank _
  refine ⟨t', heq, hshape, fun r => ?_⟩
  obtain ⟨haccounts, hcount⟩ :=
    (hblank r).accountAll (e := t.covered) hreverse hpos ht.regionWords_lt
  rw [← hget r] at haccounts hcount
  refine ⟨?_, fun o ho hbefore hreaches => ?_, ?_⟩
  · rw [hshape.geometry]
    refine (Region.measures_iff_accounts hsep hpos).2
      (haccounts.congr hreverse hsep fun o _ _ => ?_)
    rw [List.append_nil, List.mem_reverse]
  · rw [hshape.geometry] at hbefore hreaches
    rw [hget r, hshape.covered]
    exact Region.partialStart_accountAll hsep ho ((Span.crosses_iff hpos).2 ⟨hbefore, hreaches⟩)
  · rw [hcount, hcleared r]
    rfl

/-- Objects that have no word in common can be accounted in a cleared table in any order.  Then
every live word is accounted once. -/
theorem accountObjects_measures (ht : t.Laid) (hcleared : t.Cleared) (hsep : Separate os)
    (hpast : ∀ o ∈ os, o.past ≤ t.covered.words) :
    ∃ t', Heap.accountObjects (os.map (Span.run · t.covered)) t = .ok t' ∧ t.SameShape t'
      ∧ (∀ r, r < t.geometry.regionCount → t'.Measured os r)
      ∧ ∑ r ∈ Finset.range t.geometry.regionCount,
        (t'.regions.get r).dataWords = (os.map Span.words).sum := by
  obtain ⟨t', heq, hshape, hmeasured⟩ := ht.accountObjects_eq hcleared hsep hpast
  refine ⟨t', heq, hshape, fun r _ => hmeasured r, ?_⟩
  have hdata : ∀ r, (t'.regions.get r).dataWords = dataOf os t.geometry.regionWords r := fun r => by
    have hmeasures := (hmeasured r).measures
    rw [hshape.geometry] at hmeasures
    exact ((Region.measures_iff_accounts hsep t.geometry.regionWords_pos).1 hmeasures).data_eq
  rw [Finset.sum_congr rfl fun r _ => hdata r]
  exact sum_dataOf hsep (ht.covered_words ▸ hpast)

/-- An object over four regions and one that ends where it starts, in either order. -/
theorem accountObjects_measures_spans :
    ∃ t', Heap.accountObjects ([(⟨3, 12⟩ : Span), ⟨1, 2⟩].map (Span.run · ⟨4096, 256⟩))
        (RegionTable.empty ⟨4096, 256⟩ (.ofLogs 2 1 8 (by decide))) = .ok t'
      ∧ (RegionTable.empty ⟨4096, 256⟩ (.ofLogs 2 1 8 (by decide))).SameShape t'
      ∧ (∀ r, r < 8 → t'.Measured [⟨3, 12⟩, ⟨1, 2⟩] r)
      ∧ ∑ r ∈ Finset.range 8, (t'.regions.get r).dataWords = 14 :=
  accountObjects_measures (t := RegionTable.empty ⟨4096, 256⟩ (.ofLogs 2 1 8 (by decide)))
    (laid_empty (by decide) (by decide) (by decide) (by decide)) (cleared_empty _ _)
    ⟨by decide, by simp [Span.Apart, Span.past]⟩ (by decide)

end RegionTable

end MarkCompact
