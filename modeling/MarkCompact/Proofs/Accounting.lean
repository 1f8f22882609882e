import MarkCompact.Planning
import MarkCompact.Proofs.Addresses
import MarkCompact.Proofs.Walks

/-!
# Accounting live objects by region

`Region.account` is what one object does to the summary of one region: the region of its head counts
the head as live words, and every further region that the object reaches records its partial object.
`RegionTable.addObject` does that to every region (`addObject_eq`).

A region `Accounts` for some objects when its two sizes are `partialOf` and, together, `dataOf`: the
words of the object that reaches in from the left, and all live words of the region.  Accounting an
object that is apart from the others keeps that (`Region.Accounts.account`).
-/

namespace MarkCompact

variable {objs os : List Span} {o : Span} {W a b r w : ℕ}

/-! ## The live words of a region -/

/-- The words of region `r` that belong to an object that starts before the region. -/
def partialOf (objs : List Span) (W r : ℕ) : ℕ :=
  min (reach objs (r * W)) (r * W + W) - r * W

/-- The live words of region `r`. -/
def dataOf (objs : List Span) (W r : ℕ) : ℕ :=
  liveBelow objs (r * W + W) - liveBelow objs (r * W)

lemma dataOf_le (objs : List Span) (W r : ℕ) : dataOf objs W r ≤ W := by
  have hle := liveBelow_le_add objs (Nat.le_add_right (r * W) W)
  rw [dataOf]
  omega

lemma liveBelow_add_dataOf (objs : List Span) (W r : ℕ) :
    liveBelow objs (r * W) + dataOf objs W r = liveBelow objs ((r + 1) * W) := by
  have hmono := liveBelow_mono objs (Nat.le_add_right (r * W) W)
  rw [dataOf, Nat.succ_mul]
  omega

lemma partialOf_le (objs : List Span) (W r : ℕ) : partialOf objs W r ≤ W := by
  rw [partialOf]
  omega

/-- An object that does not cover the region ends in it. -/
lemma reach_eq_add_partialOf (h : Separate objs) (hlt : partialOf objs W r < W) :
    reach objs (r * W) = r * W + partialOf objs W r := by
  have hle := le_reach h (r * W)
  rw [partialOf] at hlt ⊢
  omega

/-- The words of a region that reach in from the left lie in front of the reach of its start. -/
lemma lt_reach_of_lt_partialOf (hw : w < r * W + partialOf objs W r) (hle : r * W ≤ w) :
    w < reach objs (r * W) := by
  rw [partialOf] at hw
  omega

/-- They are live. -/
lemma live_of_lt_partialOf (h : Separate objs) (h1 : r * W ≤ w)
    (h2 : w < r * W + partialOf objs W r) : Live objs w :=
  live_of_lt_reach h h1 (lt_reach_of_lt_partialOf h2 h1)

/-- No object starts there. -/
lemma not_starts_of_lt_partialOf (h : Separate objs) (h1 : r * W ≤ w)
    (h2 : w < r * W + partialOf objs W r) :
    ¬Starts objs w :=
  not_starts_of_lt_reach h h1 (lt_reach_of_lt_partialOf h2 h1)

/-- Behind them no object is cut, unless they take up the region. -/
lemma boundary_partialOf (h : Separate objs) (hlt : partialOf objs W r < W) :
    Boundary objs (r * W + partialOf objs W r) :=
  reach_eq_add_partialOf h hlt ▸ boundary_reach h (r * W)

lemma liveBelow_partialOf (h : Separate objs) (W r : ℕ) :
    liveBelow objs (r * W + partialOf objs W r) = liveBelow objs (r * W) + partialOf objs W r := by
  rw [liveBelow_of_live (Nat.le_add_right ..) fun _ => live_of_lt_partialOf h,
    Nat.add_sub_cancel_left]

lemma partialOf_le_dataOf (h : Separate objs) (W r : ℕ) : partialOf objs W r ≤ dataOf objs W r := by
  have hle := partialOf_le objs W r
  have hpartial := liveBelow_partialOf h W r
  have hmono := liveBelow_mono objs (show r * W + partialOf objs W r ≤ r * W + W by omega)
  rw [dataOf]
  omega

/-- No word of a region is live unless its data is not empty. -/
lemma dataOf_pos (hw : Live objs w) (hpos : 0 < W) : 0 < dataOf objs W (w / W) := by
  obtain ⟨h1, h2⟩ := div_mul_bounds hpos w
  have hlt := liveBelow_lt hw h2
  have hle := liveBelow_mono objs h1
  rw [dataOf]
  omega

lemma exists_live_of_dataOf_pos (h : 0 < dataOf objs W r) :
    ∃ w, r * W ≤ w ∧ w < r * W + W ∧ Live objs w := by
  rw [dataOf] at h
  have hlt : liveBelow objs (r * W) < liveBelow objs (r * W + W) := by omega
  obtain ⟨w, h1, h2, hw, _⟩ := exists_first_live hlt
  exact ⟨w, h1, h2, hw⟩

/-- A region whose words are all live is full. -/
lemma dataOf_eq_width_iff : dataOf objs W r = W ↔ ∀ w, r * W ≤ w → w < r * W + W → Live objs w := by
  constructor
  · intro hfull w h1 h2
    by_contra hdead
    have hlow := liveBelow_le_add objs h1
    have hhigh := liveBelow_le_add objs (show w + 1 ≤ r * W + W by omega)
    have hskip := liveBelow_succ objs w
    rw [if_neg hdead] at hskip
    rw [dataOf] at hfull
    omega
  · intro hlive
    rw [dataOf, liveBelow_of_live (Nat.le_add_right ..) hlive]
    omega

/-! ## Equal live words -/

/-- Counts from `a` on agree where liveness does. -/
lemma liveBelow_sub_congr (hab : a ≤ b) (hsame : ∀ w, a ≤ w → w < b → (Live objs w ↔ Live os w)) :
    liveBelow objs b - liveBelow objs a = liveBelow os b - liveBelow os a := by
  induction b, hab using Nat.le_induction with
  | base => omega
  | succ b hab ih =>
    have hprev := ih fun w h1 h2 => hsame w h1 (by omega)
    have hobjs := liveBelow_mono objs hab
    have hos := liveBelow_mono os hab
    rw [liveBelow_succ, liveBelow_succ]
    by_cases hlive : Live objs b
    · rw [if_pos hlive, if_pos ((hsame b hab (by omega)).1 hlive)]
      omega
    · rw [if_neg hlive, if_neg fun hos => hlive ((hsame b hab (by omega)).2 hos)]
      omega

/-- The reach of `a` depends only on the object across it. -/
lemma reach_congr (h : Separate objs) (h' : Separate os)
    (hsame : ∀ o, o.Crosses a → (o ∈ objs ↔ o ∈ os)) :
    reach objs a = reach os a := by
  rcases boundary_or_crosses h a with ⟨hb, heq⟩ | ⟨o, ho, hcross, heq⟩
  · rw [heq, reach_eq_of_boundary]
    intro o ho hcross
    exact hb o ((hsame o hcross).2 ho) hcross
  · rw [heq, reach_eq_of_crosses h' ((hsame o hcross).1 ho) hcross]

/-! ## One object and one region -/

namespace Region

/-- What accounting the object `o`, which is at `addr`, does to the summary of region `r`. -/
def account (W addr : ℕ) (o : Span) (r : ℕ) (a : Region) : Region :=
  if o.Crosses (r * W)
    then { a with partialWords := min o.past (r * W + W) - r * W, partialStart := addr }
  else if r * W ≤ o.start ∧ o.start < r * W + W
    then { a with state := a.state + (min o.past (r * W + W) - o.start) }
  else a

/-- The sizes of the region are those that the objects have in it. -/
structure Accounts (objs : List Span) (W r : ℕ) (a : Region) : Prop where
  partial_eq : a.partialWords = partialOf objs W r
  data_eq : a.dataWords = dataOf objs W r

variable {a : Region}

/-- An object that has no word in the region does not change its summary. -/
lemma account_of_apart {addr : ℕ} (hlt : o.start < o.past)
    (h : o.past ≤ r * W ∨ r * W + W ≤ o.start) :
    a.account W addr o r = a := by
  rw [account, if_neg, if_neg]
  · rintro ⟨h1, h2⟩
    omega
  · rintro ⟨h1, h2⟩
    omega

section

variable {addr : ℕ} (hW : 0 < W)
include hW

/-- The region of the head counts the head. -/
lemma account_head : a.account W addr o (o.start / W)
    = { a with state := a.state + (min o.past (o.start / W * W + W) - o.start) } := by
  obtain ⟨h1, h2⟩ := div_mul_bounds hW o.start
  rw [account, if_neg fun hcross => absurd hcross.1 (by omega), if_pos ⟨h1, h2⟩]

/-- Every further region that the object reaches records its partial object. -/
lemma account_tail (hlow : o.start / W < r) (hhigh : r ≤ (o.past - 1) / W) :
    a.account W addr o r
      = { a with partialWords := min o.past (r * W + W) - r * W, partialStart := addr } := by
  have h1 : o.start < r * W := (Nat.div_lt_iff_lt_mul hW).1 hlow
  have h2 : r * W ≤ o.past - 1 := (Nat.le_div_iff_mul_le hW).1 hhigh
  rw [account, if_pos ⟨h1, by omega⟩]

/-- No other region changes. -/
lemma account_outside (hpos : o.start < o.past) (h : r < o.start / W ∨ (o.past - 1) / W < r) :
    a.account W addr o r = a := by
  refine account_of_apart hpos ?_
  rcases h with hlow | hhigh
  · have := (Nat.le_div_iff_mul_le hW).1 (Nat.succ_le_of_lt hlow)
    rw [Nat.succ_mul] at this
    exact Or.inr this
  · have := (Nat.div_lt_iff_lt_mul hW).1 hhigh
    omega

end

/-- Adding words that leave the live size below its limit adds them. -/
lemma liveWords_add {n : ℕ} (h : a.liveWords + n < liveLimit) :
    ({ a with state := a.state + n } : Region).liveWords = a.liveWords + n := by
  simp only [liveWords] at h ⊢
  rw [Nat.add_mod, Nat.mod_eq_of_lt (show n < liveLimit by omega), Nat.mod_eq_of_lt h]

lemma count_add {n : ℕ} (h : a.liveWords + n < liveLimit) :
    ({ a with state := a.state + n } : Region).count = a.count := by
  have hsum := Nat.div_add_mod a.state liveLimit
  simp only [liveWords, count] at h ⊢
  refine Nat.div_eq_of_lt_le ?_ ?_
  · rw [Nat.mul_comm]
    omega
  · rw [Nat.succ_mul, Nat.mul_comm]
    omega

lemma addLive_eq {n : ℕ} (h : a.liveWords + n < liveLimit) :
    a.addLive n = .ok { a with state := a.state + n } := by
  have hlimit : liveLimit < wordValues := by decide
  rw [addLive, Word.add_eq (by omega), ok_bind, if_pos h]
  rfl

lemma setPartialWords_eq {n : ℕ} (h : n < liveLimit) :
    a.setPartialWords n = .ok { a with partialWords := n } := by
  rw [setPartialWords, if_pos h]
  rfl

/-- The words of the head fit the live size of its region. -/
lemma Accounts.head_room (h : a.Accounts objs W r) (hsep : Separate (o :: objs))
    (hW : W < liveLimit) (h1 : r * W ≤ o.start) (h2 : o.start < r * W + W) :
    a.liveWords + (min o.past (r * W + W) - o.start) < liveLimit := by
  have hcons := liveBelow_cons hsep (r * W + W)
  have hcons' := liveBelow_cons hsep (r * W)
  have hpos := hsep.start_lt_past (List.mem_cons_self ..)
  have hle := dataOf_le (o :: objs) W r
  have hmono := liveBelow_mono objs (Nat.le_add_right (r * W) W)
  have hdata := h.data_eq
  simp only [dataOf, dataWords] at hle hdata
  omega

/-- The words that reach into a region after one more object. -/
lemma partialWords_account (hsep : Separate (o :: objs)) (addr : ℕ)
    (h : a.partialWords = partialOf objs W r) :
    (a.account W addr o r).partialWords = partialOf (o :: objs) W r := by
  rw [account]
  by_cases hcross : o.Crosses (r * W)
  · rw [if_pos hcross, partialOf, reach_eq_of_crosses hsep List.mem_cons_self hcross]
  · have hreach : reach (o :: objs) (r * W) = reach objs (r * W) := by
      refine reach_congr hsep hsep.tail fun o' hcross' => ⟨fun ho' => ?_, List.mem_cons_of_mem _⟩
      rcases List.mem_cons.1 ho' with rfl | hin
      · exact absurd hcross' hcross
      · exact hin
    rw [if_neg hcross, partialOf, hreach, ← partialOf, ← h]
    split <;> rfl

/-- Accounting an object that is apart from the others. -/
theorem Accounts.account (h : a.Accounts objs W r) (addr : ℕ) (hsep : Separate (o :: objs))
    (hpos : 0 < W) (hW : W < liveLimit) : (a.account W addr o r).Accounts (o :: objs) W r := by
  have hcons := liveBelow_cons hsep (r * W + W)
  have hcons' := liveBelow_cons hsep (r * W)
  have hlt := hsep.start_lt_past (List.mem_cons_self ..)
  have hmono := liveBelow_mono objs (Nat.le_add_right (r * W) W)
  have hdata := h.data_eq
  have hle := partialOf_le_dataOf hsep.tail W r
  have hpartial := h.partial_eq
  refine ⟨partialWords_account hsep addr hpartial, ?_⟩
  rw [Region.account]
  by_cases hcross : o.Crosses (r * W)
  · rw [if_pos hcross]
    obtain ⟨h1, h2⟩ := hcross
    have hold : partialOf objs W r = 0 := by
      have hb : Boundary objs (r * W) := by
        intro o' ho' hcross'
        rcases hsep.apart_head ho' with hap | hap
        · exact absurd hcross'.1 (by omega)
        · exact absurd hcross'.2 (by omega)
      rw [partialOf, reach_eq_of_boundary hb]
      omega
    simp only [dataWords, liveWords, dataOf] at hdata ⊢
    omega
  · rw [if_neg hcross]
    simp only [Span.Crosses, not_and, not_lt] at hcross
    by_cases hin : r * W ≤ o.start ∧ o.start < r * W + W
    · have hroom := h.head_room hsep hW hin.1 hin.2
      rw [if_pos hin]
      simp only [dataWords, liveWords_add hroom] at hdata ⊢
      simp only [dataOf] at hdata ⊢
      omega
    · rw [if_neg hin, hdata]
      simp only [dataOf]
      omega

/-- Accounting an object leaves the count alone. -/
lemma count_account {addr : ℕ} (h : a.Accounts objs W r) (hsep : Separate (o :: objs))
    (hW : W < liveLimit) :
    (a.account W addr o r).count = a.count := by
  rw [Region.account]
  split
  · rfl
  · split
    · rename_i hin
      exact count_add (h.head_room hsep hW hin.1 hin.2)
    · rfl

end Region

/-! ## One object and the table -/

namespace RegionTable

variable {t : RegionTable}

lemma coverRegions_eq (ht : t.Laid) (addr count r : ℕ)
    (hcount : r + count ≤ t.geometry.regionCount) :
    ∃ t', coverRegions addr count r t = .ok t' ∧ t.SameShape t' ∧ t'.blocks = t.blocks
      ∧ ∀ q, t'.regions.get q = if r ≤ q ∧ q < r + count
          then { t.regions.get q with partialWords := t.geometry.regionWords, partialStart := addr }
          else t.regions.get q := by
  induction count generalizing r t with
  | zero =>
    refine ⟨t, rfl, .refl t, rfl, fun q => ?_⟩
    rw [if_neg (by omega)]
  | succ count ih =>
    have hr : r < t.geometry.regionCount := by omega
    let a : Region :=
      { t.regions.get r with partialWords := t.geometry.regionWords, partialStart := addr }
    obtain ⟨t', heq, hshape, hblocks, hget⟩ :=
      ih (ht.setRegion r a) (r + 1) (by rw [setRegion_geometry]; omega)
    refine ⟨t', ?_, (t.sameShape_setRegion r a).trans hshape, hblocks, fun q => ?_⟩
    · rw [coverRegions, Laid.update_eq (b := a) hr, ok_bind, heq]
      rw [Region.setPartialWords_eq ht.regionWords_lt, ok_bind]
      rfl
    · rw [hget q, setRegion_geometry]
      by_cases hq : q = r
      · subst hq
        rw [if_neg (by omega), if_pos (by omega), ht.get_setRegion_self hr]
      · rw [Laid.get_setRegion_of_ne hq]
        by_cases hin : r + 1 ≤ q ∧ q < r + 1 + count
        · rw [if_pos hin, if_pos (by omega)]
        · rw [if_neg hin, if_neg (by omega)]

/-- An object is accounted in every region as `Region.account` says. -/
theorem addObject_eq (ht : t.Laid) (hpos : 0 < o.words) (hpast : o.past ≤ t.covered.words)
    (hroom : (t.regions.get (o.start / t.geometry.regionWords)).liveWords
      + (min o.past (o.start / t.geometry.regionWords * t.geometry.regionWords
        + t.geometry.regionWords) - o.start)
        < liveLimit) :
    ∃ t', t.addObject (t.covered.addr o.start) o.words = .ok t' ∧ t.SameShape t'
      ∧ t'.blocks = t.blocks
      ∧ ∀ r, t'.regions.get r
          = (t.regions.get r).account t.geometry.regionWords (t.covered.addr o.start) o r := by
  have hW := t.geometry.regionWords_pos
  have hlt : o.start < o.past := by simp only [Span.past]; omega
  have hwords := ht.words_lt
  have hhead := ht.region_lt (i := o.start) (by omega)
  have htail := ht.region_lt (i := o.past - 1) (by omega)
  have hstartW := div_mul_bounds hW o.start
  have hlastW := div_mul_bounds hW (o.past - 1)
  have hlimit := ht.regionWords_lt
  rw [addObject, if_neg (by omega)]
  simp only [ht.wordOffset_addr (show o.start ≤ t.covered.words by omega),
    Word.add_eq (show o.start + o.words < _ from
    lt_of_le_of_lt hpast hwords), Geometry.shiftRight_regionLog, ok_bind]
  rw [show o.start + o.words = o.past from rfl]
  set W := t.geometry.regionWords
  rcases (Nat.div_le_div_right (by omega) : o.start / W ≤ (o.past - 1) / W).eq_or_lt with
    hone | hmore
  · -- The object lies in one region.
    have hwhole : min o.past (o.start / W * W + W) - o.start = o.words := by
      rw [← hone] at hlastW
      rw [min_eq_left (by omega), Span.past, Nat.add_sub_cancel_left]
    rw [hwhole] at hroom
    rw [if_pos hone]
    refine ⟨_, Laid.update_eq hhead (Region.addLive_eq hroom), t.sameShape_setRegion .., rfl,
      fun r => ?_⟩
    by_cases hr : r = o.start / W
    · subst hr
      rw [ht.get_setRegion_self hhead, Region.account_head hW, hwhole]
    · rw [Laid.get_setRegion_of_ne hr, Region.account_outside hW hlt (by omega)]
  · have hnext : o.start / W * W + W ≤ (o.past - 1) / W * W := by
      rw [← Nat.succ_mul]
      exact Nat.mul_le_mul_right W hmore
    have hrest : W - o.start % W = min o.past (o.start / W * W + W) - o.start := by
      have hmod := Nat.div_add_mod o.start W
      rw [Nat.mul_comm] at hmod
      omega
    have hpartial : (o.past - 1) % W + 1
        = min o.past ((o.past - 1) / W * W + W) - (o.past - 1) / W * W := by
      have hmod := Nat.div_add_mod (o.past - 1) W
      rw [Nat.mul_comm] at hmod
      omega
    have hmod := Nat.mod_lt (o.past - 1) hW
    rw [← hrest] at hroom
    rw [if_neg hmore.ne, Laid.update_eq hhead (Region.addLive_eq hroom), ok_bind]
    -- The head is counted, the regions in between are covered, and the last one records what
    -- remains.
    set a : Region :=
      { t.regions.get (o.start / W) with
        state := (t.regions.get (o.start / W)).state + (W - o.start % W) }
    obtain ⟨t₁, hcover, hshape, hblocks, hget⟩ := coverRegions_eq (ht.setRegion (o.start / W) a)
      (t.covered.addr o.start) ((o.past - 1) / W - (o.start / W + 1)) (o.start / W + 1)
        (by rw [setRegion_geometry]; omega)
    have ht₁ := hshape.laid (ht.setRegion _ _)
    have htail₁ : (o.past - 1) / W < t₁.geometry.regionCount :=
      (hshape.geometry : t₁.geometry = t.geometry) ▸ htail
    rw [hcover, ok_bind, Laid.update_eq (b := { t₁.regions.get ((o.past - 1) / W) with
        partialWords := (o.past - 1) % W + 1, partialStart := t.covered.addr o.start }) htail₁
      (by rw [Region.setPartialWords_eq (by omega), ok_bind]; rfl)]
    refine ⟨_, rfl, ((t.sameShape_setRegion _ _).trans hshape).trans (t₁.sameShape_setRegion _ _),
      hblocks, fun r => ?_⟩
    by_cases hr : r = (o.past - 1) / W
    · subst hr
      rw [ht₁.get_setRegion_self htail₁, hget, if_neg (by omega),
        Laid.get_setRegion_of_ne hmore.ne', Region.account_tail hW hmore le_rfl, hpartial]
    rw [Laid.get_setRegion_of_ne hr, hget]
    by_cases hr' : r = o.start / W
    · subst hr'
      rw [if_neg (by omega), ht.get_setRegion_self hhead, Region.account_head hW, ← hrest]
    rw [Laid.get_setRegion_of_ne hr']
    by_cases hin : o.start / W + 1 ≤ r
      ∧ r < o.start / W + 1 + ((o.past - 1) / W - (o.start / W + 1))
    · have hhigh : r * W + W ≤ (o.past - 1) / W * W := by
        rw [← Nat.succ_mul]
        exact Nat.mul_le_mul_right W (by omega)
      rw [if_pos hin, Region.account_tail hW hin.1 (by omega), min_eq_right (by omega),
        Nat.add_sub_cancel_left]
      rfl
    · rw [if_neg hin, Region.account_outside hW hlt (by omega)]

end RegionTable

/-! ## Several objects -/

namespace Region

variable {a : Region} {seen : List Span} {e : Extent}

/-- What accounting objects one after the other does to the summary of region `r`. -/
def accountAll (W : ℕ) (e : Extent) (os : List Span) (r : ℕ) (a : Region) : Region :=
  os.foldl (fun a o => a.account W (e.addr o.start) o r) a

/-- The summaries agree in everything but the sizes and the count. -/
structure SamePlan (a b : Region) : Prop where
  destination : b.destination = a.destination
  source : b.source = a.source
  deferred : b.deferred = a.deferred
  blocksFilled : b.blocksFilled = a.blocksFilled
  pushed : b.pushed = a.pushed

lemma SamePlan.refl (a : Region) : a.SamePlan a :=
  ⟨rfl, rfl, rfl, rfl, rfl⟩

lemma SamePlan.trans {b c : Region} (h : a.SamePlan b) (h' : b.SamePlan c) : a.SamePlan c :=
  ⟨h'.destination.trans h.destination, h'.source.trans h.source, h'.deferred.trans h.deferred,
    h'.blocksFilled.trans h.blocksFilled, h'.pushed.trans h.pushed⟩

lemma samePlan_account (W addr : ℕ) (o : Span) (r : ℕ) (a : Region) :
    a.SamePlan (a.account W addr o r) := by
  rw [account]
  split
  · exact ⟨rfl, rfl, rfl, rfl, rfl⟩
  · split
    · exact ⟨rfl, rfl, rfl, rfl, rfl⟩
    · exact .refl a

lemma samePlan_accountAll (W : ℕ) (e : Extent) (os : List Span) (r : ℕ) (a : Region) :
    a.SamePlan (a.accountAll W e os r) := by
  induction os generalizing a with
  | nil => exact .refl a
  | cons o rest ih => exact (samePlan_account W _ o r a).trans (ih _)

lemma accountAll_of_apart
    (h : ∀ o ∈ os, o.start < o.past ∧ (o.past ≤ r * W ∨ r * W + W ≤ o.start)) :
    a.accountAll W e os r = a := by
  induction os with
  | nil => rfl
  | cons o rest ih =>
    have ho := h o (List.mem_cons_self ..)
    rw [accountAll, List.foldl_cons, account_of_apart ho.1 ho.2]
    exact ih fun o' ho' => h o' (List.mem_cons_of_mem _ ho')

lemma Accounts.accountAll (h : a.Accounts seen W r) (hsep : Separate (os.reverse ++ seen))
    (hpos : 0 < W) (hW : W < liveLimit) : (a.accountAll W e os r).Accounts (os.reverse ++ seen) W r
      ∧ (a.accountAll W e os r).count = a.count := by
  induction os generalizing a seen with
  | nil => exact ⟨h, rfl⟩
  | cons o rest ih =>
    rw [List.reverse_cons, List.append_assoc] at hsep ⊢
    have hhead : Separate (o :: seen) :=
      ⟨fun o' ho' => hsep.words_pos o' (List.mem_append_right _ ho'),
        (List.pairwise_append.1 hsep.pairwise).2.1⟩
    obtain ⟨hacc, hcount⟩ := ih (h.account (e.addr o.start) hhead hpos hW) hsep
    exact ⟨hacc, hcount.trans (count_account h hhead hW)⟩

/-- What a region accounts depends only on the objects that have words in it. -/
lemma Accounts.congr (h : a.Accounts objs W r) (hsep : Separate objs) (hsep' : Separate os)
    (hsame : ∀ o, o.start < r * W + W → r * W < o.past → (o ∈ objs ↔ o ∈ os)) :
    a.Accounts os W r := by
  have hlive : ∀ w, r * W ≤ w → w < r * W + W → (Live objs w ↔ Live os w) := by
    intro w h1 h2
    constructor
    · rintro ⟨o, ho, hw⟩
      exact ⟨o, (hsame o (lt_of_le_of_lt hw.1 h2) (lt_of_le_of_lt h1 hw.2)).1 ho, hw⟩
    · rintro ⟨o, ho, hw⟩
      exact ⟨o, (hsame o (lt_of_le_of_lt hw.1 h2) (lt_of_le_of_lt h1 hw.2)).2 ho, hw⟩
  have hreach : reach objs (r * W) = reach os (r * W) :=
    reach_congr hsep hsep' fun o hcross => hsame o (by have := hcross.1; omega) hcross.2
  refine ⟨?_, ?_⟩
  · rw [h.partial_eq, partialOf, partialOf, hreach]
  · rw [h.data_eq, dataOf, dataOf, liveBelow_sub_congr (Nat.le_add_right ..) hlive]

/-- A blank region accounts for objects that have no words in it. -/
lemma accounts_blank (hdead : Dead objs (r * W) (r * W + W)) (hb : Boundary objs (r * W)) :
    ({} : Region).Accounts objs W r where
  partial_eq := by rw [partialOf, reach_eq_of_boundary hb]; simp
  data_eq := by rw [dataOf, liveBelow_of_dead (Nat.le_add_right ..) hdead, Nat.sub_self]; rfl

/-- A region with no sizes accounts no objects. -/
lemma accounts_nil (W r : ℕ) : ({} : Region).Accounts [] W r :=
  accounts_blank (fun _ _ _ ⟨_, ho, _⟩ => absurd ho List.not_mem_nil) fun _ ho =>
    absurd ho List.not_mem_nil

end Region

namespace Heap

/-- The objects are accounted one after the other in every region. -/
theorem accountObjects_eq {t : RegionTable} {seen : List Span} (ht : t.Laid)
    (hsep : Separate (os.reverse ++ seen)) (hpast : ∀ o ∈ os, o.past ≤ t.covered.words)
    (hacc : ∀ o ∈ os, (t.regions.get
      (o.start / t.geometry.regionWords)).Accounts seen t.geometry.regionWords
      (o.start / t.geometry.regionWords)) :
    ∃ t', accountObjects (os.map (Span.run · t.covered)) t = .ok t' ∧ t.SameShape t'
      ∧ t'.blocks = t.blocks
      ∧ ∀ r, t'.regions.get r
        = (t.regions.get r).accountAll t.geometry.regionWords t.covered os r := by
  have hW := t.geometry.regionWords_pos
  induction os generalizing t seen with
  | nil => exact ⟨t, rfl, .refl t, rfl, fun r => rfl⟩
  | cons o rest ih =>
    rw [List.reverse_cons, List.append_assoc] at hsep
    have hhead : Separate (o :: seen) :=
      ⟨fun o' ho' => hsep.words_pos o' (List.mem_append_right _ ho'),
        (List.pairwise_append.1 hsep.pairwise).2.1⟩
    obtain ⟨h1, h2⟩ := div_mul_bounds hW o.start
    obtain ⟨t₁, heq, hshape, hblocks, hget⟩ := RegionTable.addObject_eq ht
      (hhead.words_pos o (List.mem_cons_self ..)) (hpast o (List.mem_cons_self ..))
      ((hacc o (List.mem_cons_self ..)).head_room hhead ht.regionWords_lt h1 h2)
    have hsame : t₁.geometry.regionWords = t.geometry.regionWords := by rw [hshape.geometry]
    obtain ⟨t', heq', hshape', hblocks', hget'⟩ := ih (hshape.laid ht) hsep
      (fun o' ho' => by rw [hshape.covered]; exact hpast o' (List.mem_cons_of_mem _ ho'))
      (fun o' ho' => by
        rw [hget, hsame]
        exact (hacc o' (List.mem_cons_of_mem _ ho')).account _ hhead hW ht.regionWords_lt)
      (by rw [hsame]; exact hW)
    rw [hshape.covered] at heq' hget'
    refine ⟨t', ?_, hshape.trans hshape', hblocks'.trans hblocks, fun r => ?_⟩
    · rw [List.map_cons, accountObjects]
      show (t.addObject (t.covered.addr o.start) o.words >>= _) = _
      rw [heq, ok_bind, heq']
    · rw [hget', hget, hsame]
      rfl

end Heap

end MarkCompact
