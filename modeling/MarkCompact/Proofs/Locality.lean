import MarkCompact.Proofs.Releasing

/-!
# The plan of a zone depends on its own objects

Spaces are planned one after the other, and planning one of them may add a filler to the objects.
The plans of the other zones stand: what a table says of a zone, and where its live words go,
depends only on the objects with words in the zone and on the regions of the zone.

Main statements: `Zone.Agree.packed_eq`, `RegionTable.Accounted.congr`, `RegionTable.Ready.congr`
and `RegionTable.Untouched.congr`.
-/

namespace MarkCompact

variable {objs os : List Span} {o : Span} {W r w x : ℕ} {z : Zone}

/-- The lists hold the same objects with words in the zone. -/
def Zone.Agree (z : Zone) (W : ℕ) (objs os : List Span) : Prop :=
  ∀ o, o.start < z.last * W → z.first * W < o.past → (o ∈ objs ↔ o ∈ os)

namespace Zone.Agree

lemma refl (z : Zone) (W : ℕ) (objs : List Span) : z.Agree W objs objs :=
  fun _ _ _ => Iff.rfl

lemma symm (h : z.Agree W objs os) : z.Agree W os objs :=
  fun o h1 h2 => (h o h1 h2).symm

/-- An object that misses the zone does not matter. -/
lemma cons_of_misses (hmiss : z.Misses W o) : z.Agree W objs (o :: objs) := by
  intro o' h1 h2
  rw [List.mem_cons, or_iff_right]
  rintro rfl
  rcases hmiss with hle | hle <;> omega

variable (h : z.Agree W objs os)
include h

/-- The bounds of the prefix do not matter. -/
lemma withKeep (k : ℕ) : ({ z with keep := k } : Zone).Agree W objs os :=
  h

lemma live_iff (h1 : z.first * W ≤ w) (h2 : w < z.last * W) : Live objs w ↔ Live os w :=
  exists_congr fun o => and_congr_left fun hcov =>
    h o (lt_of_le_of_lt hcov.1 h2) (lt_of_le_of_lt h1 hcov.2)

/-- An object of one list that has a word in a region of the zone is one of the other. -/
lemma mem_iff (h1 : z.first ≤ r) (h2 : r < z.last) (hstart : o.start < r * W + W)
    (hpast : r * W < o.past) :
    o ∈ objs ↔ o ∈ os := by
  have hfirst := Nat.mul_le_mul_right W h1
  have hlast := Nat.mul_le_mul_right W (show r + 1 ≤ z.last from h2)
  rw [Nat.succ_mul] at hlast
  exact h o (by omega) (by omega)

lemma region_live_iff (h1 : z.first ≤ r) (h2 : r < z.last) (hw1 : r * W ≤ w) (hw2 : w < r * W + W) :
    Live objs w ↔ Live os w :=
  exists_congr fun _ => and_congr_left fun hcov =>
    h.mem_iff h1 h2 (lt_of_le_of_lt hcov.1 hw2) (lt_of_le_of_lt hw1 hcov.2)

lemma partialOf_eq (hsep : Separate objs) (hsep' : Separate os) (h1 : z.first ≤ r) (h2 : r < z.last)
    (hW : 0 < W) :
    partialOf objs W r = partialOf os W r := by
  rw [partialOf, partialOf, reach_congr hsep hsep' fun o hcross =>
    h.mem_iff h1 h2 (by have := hcross.1; omega) hcross.2]

lemma dataOf_eq (h1 : z.first ≤ r) (h2 : r < z.last) : dataOf objs W r = dataOf os W r :=
  liveBelow_sub_congr (Nat.le_add_right ..) fun _ => h.region_live_iff h1 h2

/-- Live words are packed to the same places. -/
lemma packed_eq (hz : z.first ≤ z.keep) (h1 : z.keep * W ≤ x) (h2 : x ≤ z.last * W) :
    z.packed W objs x = z.packed W os x := by
  have hfirst := Nat.mul_le_mul_right W hz
  rw [packed, packed, liveBelow_sub_congr h1 fun w hw1 hw2 => h.live_iff (by omega) (by omega)]

lemma forward_eq (hz : z.first ≤ z.keep) (h2 : w < z.last * W) :
    z.forward W objs w = z.forward W os w := by
  rw [forward, forward]
  split
  · rfl
  · exact h.packed_eq hz (by omega) (by omega)

end Zone.Agree

/-- A filler that fits among the objects fits among those of the zone. -/
lemma FillerFits.agree {k minimum : ℕ} (hfits : FillerFits objs (z.first * W) (k * W) z.top minimum)
    (h : z.Agree W objs os) (hfirst : z.first * W < k * W) (hk : k * W < z.top)
    (htop : z.top ≤ z.last * W) :
    FillerFits os (z.first * W) (k * W) z.top minimum := by
  intro hcross
  obtain ⟨a, b, h1, h2, h3, h4, hdead, hroom⟩ :=
    hfits ⟨fun hlive => hcross.1 ((h.live_iff (by omega) (by omega)).1 hlive),
    fun hlive => hcross.2 ((h.live_iff (by omega) (by omega)).1 hlive)⟩
  exact ⟨a, b, h1, h2, h3, h4,
    fun w hw1 hw2 hlive => hdead w hw1 hw2 ((h.live_iff (by omega) (by omega)).2 hlive), hroom⟩

/-- So is where the space of the zone ends. -/
lemma Space.Matches.agree {s : Space} {e : Extent} {words : ℕ} (hs : s.Matches e W objs z)
    (h : z.Agree W objs os) (hz : z.Ordered W words) : s.Matches e W os z :=
  ⟨hs.toOver, by rw [hs.newTop, h.packed_eq hz.first_le_keep hz.keep_le_top hz.top_le_last],
    hs.densePrefix⟩

lemma Region.Accounts.agree {a : Region} (haccounts : a.Accounts objs W r) (h : z.Agree W objs os)
    (hsep : Separate objs) (hsep' : Separate os) (h1 : z.first ≤ r) (h2 : r < z.last) :
    a.Accounts os W r :=
  haccounts.congr hsep hsep' fun _ => h.mem_iff h1 h2

namespace RegionTable

variable {t t' : RegionTable}

/-- What regions account for depends on the objects of the zone and on the regions only. -/
lemma Accounted.congr (h : t.Accounted objs z.first z.last)
    (hag : z.Agree t.geometry.regionWords objs os) (hsep : Separate objs) (hsep' : Separate os)
    (hgeometry : t'.geometry = t.geometry)
    (hsame : ∀ r, z.first ≤ r → r < z.last → t'.regions.get r = t.regions.get r) :
    t'.Accounted os z.first z.last := by
  refine ⟨fun r h1 h2 => ?_, fun r h1 h2 hdata => ?_, fun r h1 h2 => ?_, fun r h1 h2 => ?_,
    fun r h1 h2 => ?_⟩ <;>
    rw [hsame r h1 h2]
  · rw [hgeometry]
    exact (h.accounts r h1 h2).agree hag hsep hsep' h1 h2
  · rw [hgeometry, ← hag.dataOf_eq h1 h2] at hdata
    exact h.uncounted r h1 h2 hdata
  · exact h.deferred r h1 h2
  · exact h.blocksFilled r h1 h2
  · exact h.pushed r h1 h2

/-- The block offsets of a region depend on the objects with words in it only. -/
lemma BlocksValid.congr (h : t.BlocksValid objs r) (hag : z.Agree t.geometry.regionWords objs os)
    (hsep : Separate objs) (hsep' : Separate os) (h1 : z.first ≤ r) (h2 : r < z.last)
    (hgeometry : t'.geometry = t.geometry) (hblocks : t'.blocks = t.blocks)
    (hsame : t'.regions.get r = t.regions.get r) : t'.BlocksValid os r := by
  have hstarts : ∀ x, r * t.geometry.regionWords ≤ x →
      x < r * t.geometry.regionWords + t.geometry.regionWords →
      (Starts os x ↔ Starts objs x) := by
    intro x hx1 hx2
    refine exists_congr fun o => and_congr_left fun heq => ?_
    subst heq
    constructor
    · intro ho
      exact (hag.mem_iff h1 h2 hx2 (lt_of_le_of_lt hx1 (hsep'.start_lt_past ho))).2 ho
    · intro ho
      exact (hag.mem_iff h1 h2 hx2 (lt_of_le_of_lt hx1 (hsep.start_lt_past ho))).1 ho
  intro hfilled x hx1 hx2 hfirst
  rw [hsame] at hfilled
  rw [hgeometry] at hx1 hx2 hfirst ⊢
  rw [hblocks, h hfilled x hx1 hx2 ⟨(hstarts x hx1 hx2).1 hfirst.starts, fun y hy1 hy2 hy => ?_⟩,
    liveBelow_sub_congr hx1 fun w hw1 hw2 => hag.region_live_iff h1 h2 hw1 (by omega)]
  -- The block of a word of the region lies in the region.
  have hy := (hstarts y (le_trans (region_le_block t hx1) hy1) (by omega)).2 hy
  exact hfirst.before y hy1 hy2 hy

lemma Sends.congr_objs {f g : ℕ → ℕ} (h : t.Sends objs f r)
    (hag : z.Agree t.geometry.regionWords objs os) (hsep : Separate objs) (hsep' : Separate os)
    (h1 : z.first ≤ r) (h2 : r < z.last)
    (hfg : ∀ w, r * t.geometry.regionWords ≤ w →
      w < r * t.geometry.regionWords + t.geometry.regionWords → g w = f w)
    (hcovered : t'.covered = t.covered) (hgeometry : t'.geometry = t.geometry)
    (hsame : t'.regions.get r = t.regions.get r) : t'.Sends os g r := by
  have hlive := fun w (hw1 : r * t.geometry.regionWords ≤ w)
    (hw2 : w < r * t.geometry.regionWords + t.geometry.regionWords) =>
      hag.region_live_iff h1 h2 hw1 hw2
  cases h with
  | moved target accounts destination target_le eq =>
    refine .moved target (by rw [hsame, hgeometry]; exact accounts.agree hag hsep hsep' h1 h2)
      (by rw [hsame, hcovered]; exact destination) (by rw [hgeometry]; exact target_le)
        fun w hw1 hw2 hw => ?_
    rw [hgeometry] at hw1 hw2 ⊢
    rw [hfg w hw1 hw2, eq w hw1 hw2 ((hlive w hw1 hw2).2 hw),
      liveBelow_sub_congr hw1 fun w' g1 g2 => hlive w' g1 (by omega)]
  | kept partial_eq full destination eq =>
    refine .kept ?_ (by rw [hsame, hgeometry]; exact full)
      (by rw [hsame, hcovered, hgeometry]; exact destination)
      fun w hw1 hw2 hw => ?_
    · rw [hsame, hgeometry, ← hag.partialOf_eq hsep hsep' h1 h2 t.geometry.regionWords_pos]
      exact partial_eq
    · rw [hgeometry] at hw1 hw2
      rw [hfg w hw1 hw2, eq w hw1 hw2 ((hlive w hw1 hw2).2 hw)]

section

variable (hag : z.Agree t.geometry.regionWords objs os)
  (hz : z.Ordered t.geometry.regionWords t.covered.words) (hgeometry : t'.geometry = t.geometry)
  (hsame : ∀ r, z.first ≤ r → r < z.last → t'.regions.get r = t.regions.get r)
include hag hz hgeometry hsame

/-- A plan in the table depends on the objects of the zone and on its regions and blocks only. -/
theorem Ready.congr (h : t.Ready objs z) (hsep : Separate objs) (hsep' : Separate os)
    (hcovered : t'.covered = t.covered) (hblocks : t'.blocks = t.blocks) : t'.Ready os z := by
  have hW := t.geometry.regionWords_pos
  have hkeep := hz.first_le_keep
  have htop := hz.top_le_last
  have hlast : ∀ r, r * t.geometry.regionWords < z.top → r < z.last := fun r hr =>
    Nat.lt_of_mul_lt_mul_right (a := t.geometry.regionWords) (by omega)
  have hpacked : ∀ r, z.keep ≤ r → r ≤ z.last →
      z.packed t.geometry.regionWords os (r * t.geometry.regionWords)
        = z.packed t.geometry.regionWords objs (r * t.geometry.regionWords) := fun r h1 h2 =>
    (hag.packed_eq hkeep (Nat.mul_le_mul_right _ h1) (Nat.mul_le_mul_right _ h2)).symm
  refine ⟨fun r h1 h2 => ?_, fun r h1 h2 => ?_, fun r h1 h2 => ?_, fun r h1 h2 => ?_,
    fun r h1 h2 => ?_,
    fun r h1 h2 => ?_, fun q r h1 h2 h3 h4 h5 => ?_⟩
  · rw [hgeometry] at h2 ⊢
    refine (h.sends r h1 h2).congr_objs hag hsep hsep' h1 (hlast r h2)
      (fun w hw1 hw2 => ?_) hcovered hgeometry
      (hsame r h1 (hlast r h2))
    have hend := Nat.mul_le_mul_right t.geometry.regionWords (show r + 1 ≤ z.last from hlast r h2)
    rw [Nat.succ_mul] at hend
    exact (hag.forward_eq hkeep (by omega)).symm
  · exact (h.valid r h1 h2).congr hag hsep hsep' h1 h2 hgeometry hblocks (hsame r h1 h2)
  · rw [hsame r h1 h2, h.partial_eq r h1 h2, hgeometry, hag.partialOf_eq hsep hsep' h1 h2 hW]
  · rw [hsame r h1 (lt_of_lt_of_le h2 (hz.keep_le_last hW)), h.full r h1 h2, hgeometry]
  · rw [hsame r (le_trans hkeep h1) h2, h.data_eq r h1 h2, hgeometry,
      hag.dataOf_eq (le_trans hkeep h1) h2]
  · rw [hgeometry] at h2 ⊢
    rw [hsame r (le_trans hkeep h1) (hlast r h2), h.destination r h1 h2, hcovered,
      hpacked r h1 (hlast r h2).le]
  · rw [hgeometry] at h2 h4 h5
    rw [hpacked q h1 (hlast q h2).le] at h4
    rw [hpacked (q + 1) (by omega) (hlast q h2)] at h5
    have hr : z.keep ≤ r := by
      have hlow := z.le_packed t.geometry.regionWords objs (q * t.geometry.regionWords)
      exact Nat.le_of_mul_le_mul_right (le_trans hlow h4) hW
    rw [hsame r (le_trans hkeep hr) h3, h.source q r h1 h2 h3 h4 h5]

/-- So do the counts of a plan. -/
lemma Untouched.congr (h : t.Untouched objs z) : t'.Untouched os z := by
  have hkeep := hz.first_le_keep
  have hlast := hz.keep_le_last t.geometry.regionWords_pos
  refine ⟨fun r h1 h2 => ?_, fun r h1 h2 => ?_, fun r h1 h2 => ?_, fun r h1 h2 => ?_⟩
  · rw [hsame r h1 (by omega), h.kept r h1 h2]
  · rw [hsame r (le_trans hkeep h1) h2, h.count r h1 h2, hgeometry, Zone.touched, Zone.touched,
      hag.dataOf_eq (le_trans hkeep h1) h2,
      hag.packed_eq hkeep (Nat.mul_le_mul_right _ h1) (Nat.mul_le_mul_right _ h2.le),
      hag.packed_eq hkeep (Nat.mul_le_mul_right _ (by omega))
        (Nat.mul_le_mul_right _ (show r + 1 ≤ z.last from h2))]
  · rw [hsame r h1 h2, h.deferred r h1 h2]
  · rw [hsame r h1 h2, h.pushed r h1 h2]

end

/-- Recorded block offsets do not matter for the counts. -/
lemma Untouched.refilled (h : t.Untouched objs z) (hrefilled : Refilled os t t') :
    t'.Untouched objs z := by
  refine ⟨fun r h1 h2 => ?_, fun r h1 h2 => ?_, fun r h1 h2 => ?_,
    fun r h1 h2 => ?_⟩ <;> rw [hrefilled.regions r]
  · exact h.kept r h1 h2
  · rw [hrefilled.shape.geometry]
    exact h.count r h1 h2
  · exact h.deferred r h1 h2
  · exact h.pushed r h1 h2

end RegionTable

end MarkCompact
