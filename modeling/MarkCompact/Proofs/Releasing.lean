import MarkCompact.Compaction
import MarkCompact.Proofs.Counts

/-!
# The region table while regions are filled

`p.Loaded t` says that the table `t` holds the plan `p`; nothing that compaction does changes that.
`p.Counted t done taken` says what the counts are once the regions in `done` are completed and the
destinations have taken what `taken` says: a region that receives data is claimed as soon as nothing
is owed from it.

Main statements: `loaded_of_planned`, `releaseRegions_runs` (a destination releases the regions that
it has taken its data from, and claims those that become available).
-/

namespace MarkCompact

variable {objs : List Span} {W q r w : ℕ} {z : Zone} {p : Plan} {done : ℕ → Prop}
  {taken taken' : ℕ → ℕ → Prop}

/-! ## The plan in the table -/

namespace RegionTable

variable {t t' t'' : RegionTable}

/-- The tables hold the same plan: they may differ in counts, in what has been queued or deferred
and in recorded block offsets. -/
structure Advances (objs : List Span) (t t' : RegionTable) : Prop where
  shape : t.SameShape t'
  load : ∀ r, (t.regions.get r).SameLoad (t'.regions.get r)
  valid : ∀ r, t.BlocksValid objs r → t'.BlocksValid objs r

/-- The tables differ in counts, in what has been queued and in recorded block offsets only. -/
structure Recounted (objs : List Span) (t t' : RegionTable) : Prop extends Advances objs t t' where
  deferred : ∀ r, (t'.regions.get r).deferred = (t.regions.get r).deferred

lemma Advances.refl (objs : List Span) (t : RegionTable) : Advances objs t t :=
  ⟨.refl t, fun _ => .refl _, fun _ h => h⟩

lemma Advances.trans (h : Advances objs t t') (h' : Advances objs t' t'') : Advances objs t t'' :=
  ⟨h.shape.trans h'.shape, fun r => (h.load r).trans (h'.load r),
    fun r hr => h'.valid r (h.valid r hr)⟩

lemma Recounted.refl (objs : List Span) (t : RegionTable) : Recounted objs t t :=
  ⟨.refl objs t, fun _ => rfl⟩

lemma Recounted.trans (h : Recounted objs t t') (h' : Recounted objs t' t'') :
    Recounted objs t t'' :=
  ⟨h.toAdvances.trans h'.toAdvances, fun r => (h'.deferred r).trans (h.deferred r)⟩

lemma Refilled.recounted (h : Refilled objs t t') : Recounted objs t t' :=
  ⟨⟨h.shape, fun r => by rw [h.regions r]; exact ⟨rfl, rfl, rfl, rfl⟩, h.valid⟩,
    fun r => by rw [h.regions r]⟩

lemma Refilled.advances (h : Refilled objs t t') : Advances objs t t' :=
  h.recounted.toAdvances

/-- A change of one region that keeps its load keeps the offsets of blocks. -/
lemma BlocksValid.setRegion {a : Region} (h : t.BlocksValid objs q) (ht : t.Laid)
    (hr : r < t.geometry.regionCount) (hblocks : a.blocksFilled = (t.regions.get r).blocksFilled) :
    (t.setRegion r a).BlocksValid objs q := by
  intro hfilled
  by_cases hqr : q = r
  · subst hqr
    rw [ht.get_setRegion_self hr, hblocks] at hfilled
    exact h hfilled
  · rw [Laid.get_setRegion_of_ne hqr] at hfilled
    exact h hfilled

lemma advances_setRegion {a : Region} (ht : t.Laid) (hr : r < t.geometry.regionCount)
    (hload : (t.regions.get r).SameLoad a)
    (hblocks : a.blocksFilled = (t.regions.get r).blocksFilled) :
    Advances objs t (t.setRegion r a) := by
  refine ⟨t.sameShape_setRegion r a, fun q => ?_, fun q hq => hq.setRegion ht hr hblocks⟩
  by_cases hqr : q = r
  · subst hqr
    rw [ht.get_setRegion_self hr]
    exact hload
  · rw [Laid.get_setRegion_of_ne hqr]
    exact .refl _

lemma recounted_setRegion {a : Region} (ht : t.Laid) (hr : r < t.geometry.regionCount)
    (hload : (t.regions.get r).SameLoad a) (hdeferred : a.deferred = (t.regions.get r).deferred)
    (hblocks : a.blocksFilled = (t.regions.get r).blocksFilled) :
    Recounted objs t (t.setRegion r a) := by
  refine ⟨advances_setRegion ht hr hload hblocks, fun q => ?_⟩
  by_cases hqr : q = r
  · subst hqr
    rw [ht.get_setRegion_self hr]
    exact hdeferred
  · rw [Laid.get_setRegion_of_ne hqr]

/-- The table holds the plan of the zone. -/
structure Ready (t : RegionTable) (objs : List Span) (z : Zone) : Prop where
  sends : ∀ r, z.first ≤ r → r * t.geometry.regionWords < z.top →
    t.Sends objs (z.forward t.geometry.regionWords objs) r
  valid : ∀ r, z.first ≤ r → r < z.last → t.BlocksValid objs r
  partial_eq : ∀ r, z.first ≤ r → r < z.last →
    (t.regions.get r).partialWords = partialOf objs t.geometry.regionWords r
  /-- A region of the dense prefix appears full. -/
  full : ∀ r, z.first ≤ r → r < z.keep → (t.regions.get r).dataWords = t.geometry.regionWords
  data_eq : ∀ r, z.keep ≤ r → r < z.last →
    (t.regions.get r).dataWords = dataOf objs t.geometry.regionWords r
  destination : ∀ r, z.keep ≤ r → r * t.geometry.regionWords < z.top →
    (t.regions.get r).destination
      = t.covered.addr (z.packed t.geometry.regionWords objs (r * t.geometry.regionWords))
  source : ∀ q r, z.keep ≤ q → q * t.geometry.regionWords < z.top → r < z.last →
    z.packed t.geometry.regionWords objs (q * t.geometry.regionWords) ≤ r * t.geometry.regionWords →
    r * t.geometry.regionWords < z.packed t.geometry.regionWords objs
      ((q + 1) * t.geometry.regionWords) →
    (t.regions.get r).source = q

/-- Compaction has not begun in the zone. -/
structure Untouched (t : RegionTable) (objs : List Span) (z : Zone) : Prop where
  kept : ∀ r, z.first ≤ r → r < z.keep → (t.regions.get r).count = 0
  count : ∀ r, z.keep ≤ r → r < z.last →
    (t.regions.get r).count = z.touched t.geometry.regionWords objs r
  deferred : ∀ r, z.first ≤ r → r < z.last → (t.regions.get r).deferred = 0
  pushed : ∀ r, z.first ≤ r → r < z.last → (t.regions.get r).pushed = false

lemma Planned.ready (h : t.Planned objs z) (hz : z.Ordered t.geometry.regionWords t.covered.words) :
    t.Ready objs z where
  sends _ h1 h2 := h.sends hz h1 ((lt_upTo_iff t.geometry.regionWords_pos).2 h2)
  valid _ h1 h2 := h.blocksValid h1 h2
  partial_eq _ h1 h2 := h.partial_eq h1 h2
  full r h1 h2 := (h.stays r h1 h2).full
  data_eq r h1 h2 := (h.accounted.accounts r h1 h2).data_eq
  destination r h1 h2 := h.destination r h1 ((lt_upTo_iff t.geometry.regionWords_pos).2 h2)
  source q r h1 h2 := h.source q r h1 ((lt_upTo_iff t.geometry.regionWords_pos).2 h2)

lemma Planned.untouched (h : t.Planned objs z) : t.Untouched objs z where
  kept r h1 h2 := (h.stays r h1 h2).count
  count := h.count
  deferred r h1 h2 := by
    by_cases hkeep : r < z.keep
    · exact (h.stays r h1 hkeep).deferred
    · exact h.accounted.deferred r (not_lt.1 hkeep) h2
  pushed r h1 h2 := by
    by_cases hkeep : r < z.keep
    · exact (h.stays r h1 hkeep).pushed
    · exact h.accounted.pushed r (not_lt.1 hkeep) h2

/-- What compaction does to the table keeps the plan. -/
theorem Ready.advance (h : t.Ready objs z) (hadv : Advances objs t t') : t'.Ready objs z := by
  have hcovered := hadv.shape.covered
  have hgeometry := hadv.shape.geometry
  refine ⟨fun r h1 h2 => ?_, fun r h1 h2 => hadv.valid r (h.valid r h1 h2), fun r h1 h2 => ?_,
    fun r h1 h2 => ?_,
    fun r h1 h2 => ?_, fun r h1 h2 => ?_, fun q r h1 h2 h3 h4 h5 => ?_⟩
  · rw [hgeometry] at h2 ⊢
    exact (h.sends r h1 h2).congr hcovered hgeometry (hadv.load r).partialWords
      (hadv.load r).liveWords
      (hadv.load r).destination
  · rw [(hadv.load r).partialWords, h.partial_eq r h1 h2, hgeometry]
  · rw [(hadv.load r).dataWords, h.full r h1 h2, hgeometry]
  · rw [(hadv.load r).dataWords, h.data_eq r h1 h2, hgeometry]
  · rw [hgeometry] at h2 ⊢
    rw [(hadv.load r).destination, h.destination r h1 h2, hcovered]
  · rw [hgeometry] at h2 h4 h5
    rw [(hadv.load r).source, h.source q r h1 h2 h3 h4 h5]

end RegionTable

namespace Plan

variable {t t' : RegionTable}

/-- The table holds the plan. -/
structure Loaded (p : Plan) (t : RegionTable) : Prop where
  laid : t.Laid
  covered : t.covered = p.covered
  geometry : t.geometry = p.geometry
  ready : ∀ z ∈ p.zones, t.Ready p.objs z
  /-- No object reaches into a region outside of the spaces. -/
  outside : ∀ r, (∀ z ∈ p.zones, ¬(z.first ≤ r ∧ r < z.last)) → (t.regions.get r).partialWords = 0

theorem Loaded.advance (h : p.Loaded t) (hadv : RegionTable.Advances p.objs t t') :
    p.Loaded t' where
  laid := hadv.shape.laid h.laid
  covered := hadv.shape.covered.trans h.covered
  geometry := hadv.shape.geometry.trans h.geometry
  ready z hz := (h.ready z hz).advance hadv
  outside r hr := by rw [(hadv.load r).partialWords, h.outside r hr]

lemma Loaded.regionWords_eq (h : p.Loaded t) : t.geometry.regionWords = p.regionWords := by
  rw [h.geometry]
  rfl

lemma Loaded.regionStart_eq (h : p.Loaded t) (r : ℕ) :
    t.regionStart r = p.covered.addr (r * p.regionWords) := by
  rw [RegionTable.Laid.regionStart_eq, h.covered, h.regionWords_eq]

/-- Live words are forwarded as planned. -/
theorem Loaded.forward_eq (h : p.Loaded t) (hp : p.Valid) {m : MarkBitmap} (hm : m.Marks p.objs)
    (hcovered : m.covered = p.covered) (hw : Live p.objs w) :
    ∃ t', t.forward m (p.covered.addr w) = .ok (p.covered.addr (p.forward w), t')
      ∧ RegionTable.Refilled p.objs t t' := by
  have hW := p.regionWords_pos
  obtain ⟨z, hz, hhas, htop⟩ := hp.exists_zone hw
  have hdiv := Nat.div_mul_le_self w p.regionWords
  have hfirst : z.first ≤ w / p.regionWords := (Nat.le_div_iff_mul_le hW).2 hhas.1
  have hlast : w / p.regionWords < z.last := div_lt_of_lt_mul hhas.2
  obtain ⟨t', heq, hrefilled⟩ :=
    RegionTable.forward_eq (t := t) h.laid hm (hcovered.trans h.covered.symm) hw
    (by
      rw [h.regionWords_eq]; exact (h.ready z hz).sends _ hfirst (by rw [h.regionWords_eq]; omega))
    (by rw [h.regionWords_eq]; exact (h.ready z hz).valid _ hfirst hlast)
  refine ⟨t', ?_, hrefilled⟩
  rw [h.covered, h.regionWords_eq] at heq
  rw [heq, hp.forward_eq hz hhas]

lemma Loaded.last_le (h : p.Loaded t) (hp : p.Valid) (hz : z ∈ p.zones) :
    z.last ≤ t.geometry.regionCount := by
  have hwords := (hp.ordered z hz).last_le
  rw [← h.covered, h.laid.covered_words, h.regionWords_eq] at hwords
  exact Nat.le_of_mul_le_mul_right hwords p.regionWords_pos

lemma Loaded.region_lt (h : p.Loaded t) (hp : p.Valid) (hz : z ∈ p.zones) (hr : r < z.last) :
    r < t.geometry.regionCount :=
  lt_of_lt_of_le hr (h.last_le hp hz)

end Plan

/-! ## The counts -/

namespace Zone

/-- Data is copied to region `r`. -/
def Receives (z : Zone) (W : ℕ) (objs : List Span) (r : ℕ) : Prop :=
  z.keep ≤ r ∧ r * W < z.newTop W objs

/-- Region `r` receives data, and nothing is owed from it once the regions in `taken` have taken
their data. -/
def Freed (z : Zone) (W : ℕ) (objs : List Span) (taken : ℕ → Prop) (r : ℕ) : Prop :=
  z.Receives W objs r ∧ z.owed W objs taken r = 0

open Classical in
/-- The count of region `r` once the regions in `done` are completed and those in `taken` have taken
their data. -/
noncomputable def countOf (z : Zone) (W : ℕ) (objs : List Span) (done taken : ℕ → Prop)
    (r : ℕ) : ℕ :=
  if z.Freed W objs taken r then if done r then completedCount else claimedCount
  else z.owed W objs taken r

lemma Receives.lt_last {words : ℕ} (h : z.Receives W objs r) (hz : z.Ordered W words) :
    r < z.last := by
  have h1 := hz.newTop_le objs
  have h2 := hz.top_le_last
  obtain ⟨_, h3⟩ := h
  exact lt_of_mul_lt_mul_right (show r * W < z.last * W by omega) (Nat.zero_le _)

lemma countOf_of_freed {taken : ℕ → Prop} (h : z.Freed W objs taken r) (hdone : ¬done r) :
    z.countOf W objs done taken r = claimedCount := by
  rw [countOf, if_pos h, if_neg hdone]

lemma countOf_of_not_freed {taken : ℕ → Prop} (h : ¬z.Freed W objs taken r) :
    z.countOf W objs done taken r = z.owed W objs taken r :=
  if_neg h

end Zone

namespace Plan

variable {t t' : RegionTable}

/-- The counts of the table, once the regions in `done` are completed and destinations have taken
what `taken` says. -/
structure Counted (p : Plan) (t : RegionTable) (done : ℕ → Prop) (taken : ℕ → ℕ → Prop) : Prop where
  count : ∀ z ∈ p.zones, ∀ r, z.keep ≤ r → r < z.last →
    (t.regions.get r).count = z.countOf p.regionWords p.objs done (taken · r) r
  pushed : ∀ z ∈ p.zones, ∀ r, z.keep ≤ r → r < z.last →
    ((t.regions.get r).pushed = true ↔ z.Freed p.regionWords p.objs (taken · r) r)
  kept : ∀ z ∈ p.zones, ∀ r, z.first ≤ r → r < z.keep →
    done r ∧ (t.regions.get r).count = completedCount
    ∨ ¬done r ∧ (t.regions.get r).count = 0

/-- Counts are the same where counts and marks of the table are. -/
lemma Counted.congr (h : p.Counted t done taken)
    (hsame : ∀ r, (t'.regions.get r).count = (t.regions.get r).count
      ∧ (t'.regions.get r).pushed = (t.regions.get r).pushed) :
    p.Counted t' done taken where
  count z hz r h1 h2 := by rw [(hsame r).1, h.count z hz r h1 h2]
  pushed z hz r h1 h2 := by rw [(hsame r).2, h.pushed z hz r h1 h2]
  kept z hz r h1 h2 := by rw [(hsame r).1]; exact h.kept z hz r h1 h2

/-- A region lies in one zone. -/
lemma Valid.eq_of_region (hp : p.Valid) {z' : Zone} (hz : z ∈ p.zones) (hz' : z' ∈ p.zones)
    (h1 : z.first ≤ r) (h2 : r < z.last) (h3 : z'.first ≤ r) (h4 : r < z'.last) : z = z' := by
  by_contra hne
  rcases hp.apart.forall hz hz' hne with hap | hap <;> omega

/-- What destination `q` taking its data from region `r` does to the counts. -/
lemma Counted.take (h : p.Counted t done taken) (hp : p.Valid) (ht : p.Loaded t) (hz : z ∈ p.zones)
    (h1 : z.keep ≤ r) (h2 : r < z.last) {a : Region}
    (htaken : ∀ q' r', taken' q' r' ↔ taken q' r' ∨ (q' = q ∧ r' = r))
    (hcount : a.count = z.countOf p.regionWords p.objs done (taken' · r) r)
    (hpushed : a.pushed = true ↔ z.Freed p.regionWords p.objs (taken' · r) r) :
    p.Counted (t.setRegion r a) done taken' := by
  have hr := ht.region_lt hp hz h2
  have hfirst := (hp.ordered z hz).first_le_keep
  have hown : ∀ z' ∈ p.zones, z'.first ≤ r → r < z'.last → z = z' := fun z' hz' h1' h2' =>
    hp.eq_of_region hz hz' (by omega) h2 h1' h2'
  have hsame : ∀ r', r' ≠ r → (fun q' => taken' q' r') = fun q' => taken q' r' := fun r' hne =>
    funext fun q' => propext ((htaken q' r').trans (by simp [hne]))
  refine ⟨fun z' hz' r' h1' h2' => ?_, fun z' hz' r' h1' h2' => ?_, fun z' hz' r' h1' h2' => ?_⟩
  · have hfirst' := (hp.ordered z' hz').first_le_keep
    by_cases hne : r' = r
    · subst hne
      obtain rfl := hown z' hz' (by omega) h2'
      rw [ht.laid.get_setRegion_self hr, hcount]
    · rw [RegionTable.Laid.get_setRegion_of_ne hne, h.count z' hz' r' h1' h2', hsame r' hne]
  · have hfirst' := (hp.ordered z' hz').first_le_keep
    by_cases hne : r' = r
    · subst hne
      obtain rfl := hown z' hz' (by omega) h2'
      rw [ht.laid.get_setRegion_self hr, hpushed]
    · rw [RegionTable.Laid.get_setRegion_of_ne hne, h.pushed z' hz' r' h1' h2', hsame r' hne]
  · have hne : r' ≠ r := by
      rintro rfl
      have hordered := hp.ordered z' hz'
      have hlast : z'.keep ≤ z'.last :=
        Nat.le_of_mul_le_mul_right (le_trans hordered.keep_le_top hordered.top_le_last)
          p.regionWords_pos
      obtain rfl := hown z' hz' h1' (by omega)
      omega
    rw [RegionTable.Laid.get_setRegion_of_ne hne]
    exact h.kept z' hz' r' h1' h2'

end Plan

/-! ## Releasing source regions -/

lemma Zone.owed_lt (hW : 0 < W) (hr : z.keep ≤ r) (taken : ℕ → Prop) :
    z.owed W objs taken r < claimedCount := by
  refine lt_of_le_of_lt (z.owed_mono fun _ h => h.elim)
    (?_ : z.owed W objs (fun _ => False) r < claimedCount)
  rw [z.owed_eq_touched hW hr fun _ => id, Zone.touched]
  split
  · decide
  · exact Region.otherRegions_lt ..

namespace Plan

/-- The counts and marks of a region whose data is still owed. -/
lemma Counted.owing {t : RegionTable} (h : p.Counted t done taken) (hz : z ∈ p.zones)
    (h1 : z.keep ≤ r) (h2 : r < z.last) (howed : 0 < z.owed p.regionWords p.objs (taken · r) r) :
    (t.regions.get r).count = z.owed p.regionWords p.objs (taken · r) r
      ∧ (t.regions.get r).pushed = false := by
  have hnot : ¬z.Freed p.regionWords p.objs (taken · r) r :=
    fun hfreed => absurd hfreed.2 (by omega)
  refine ⟨by rw [h.count z hz r h1 h2, Zone.countOf_of_not_freed hnot], ?_⟩
  rw [← Bool.not_eq_true, h.pushed z hz r h1 h2]
  exact hnot

/-- A region is released to destination `q` that takes its data, and is claimed and queued if that
frees it. -/
inductive Released (p : Plan) (t : RegionTable) (done : ℕ → Prop) (taken : ℕ → ℕ → Prop) (z : Zone)
    (r : ℕ) (b : Region) : Prop
  | freed (freed : z.Freed p.regionWords p.objs (taken · r) r) (available : b.isAvailable = true)
      (a : Region) (eq : b.claim.2.notePushed = .ok a)
      (recounted : RegionTable.Recounted p.objs t (t.setRegion r a))
      (counted : p.Counted (t.setRegion r a) done taken) : Released p t done taken z r b
  | owing (owing : ¬z.Freed p.regionWords p.objs (taken · r) r)
      (unavailable : ¬(r * p.regionWords < z.newTop p.regionWords p.objs ∧ b.isAvailable = true))
      (recounted : RegionTable.Recounted p.objs t (t.setRegion r b))
      (counted : p.Counted (t.setRegion r b) done taken) : Released p t done taken z r b

/-- A destination takes its data from a region once. -/
lemma Counted.release {t : RegionTable} (hcounted : p.Counted t done taken) (hp : p.Valid)
    (ht : p.Loaded t) (taken' : ℕ → ℕ → Prop) (hz : z ∈ p.zones) (hqr : q < r) (hlast : r < z.last)
    (hkeep : z.keep ≤ r) (hfeeds : z.Feeds p.regionWords p.objs r q) (hnot : ¬taken q r)
    (hdone : ¬done r) (htaken : ∀ q' r', taken' q' r' ↔ taken q' r' ∨ (q' = q ∧ r' = r)) :
    (t.regions.get r).dataWords ≠ 0
      ∧ ∃ b, (t.regions.get r).decrement = .ok b ∧ p.Released t done taken' z r b := by
  have hW := p.regionWords_pos
  have hr := ht.region_lt hp hz hlast
  have htake : z.owed p.regionWords p.objs (taken · r) r
      = z.owed p.regionWords p.objs (taken' · r) r + 1 :=
    z.owed_take hqr hfeeds hnot fun q' => (htaken q' r).trans (by simp)
  obtain ⟨hcount, hpushed⟩ := hcounted.owing hz hkeep hlast (by omega)
  have hlimit : z.owed p.regionWords p.objs (taken · r) r < claimedCount := Zone.owed_lt hW hkeep _
  have hdata : (t.regions.get r).dataWords ≠ 0 := by
    rw [(ht.ready z hz).data_eq r hkeep hlast, ht.regionWords_eq]
    exact hfeeds.dataOf_ne hkeep
  refine ⟨hdata, _, Region.decrement_eq (by omega) (by omega), ?_⟩
  have hleft : ((t.regions.get r).withCount ((t.regions.get r).count - 1)).count
      = z.owed p.regionWords p.objs (taken' · r) r := by
    rw [Region.count_withCount]
    omega
  have hload := Region.sameLoad_withCount (t.regions.get r) ((t.regions.get r).count - 1)
  have hdeferred : ((t.regions.get r).withCount ((t.regions.get r).count - 1)).deferred
      = (t.regions.get r).deferred :=
    Region.deferred_withCount ..
  have hblocks : ((t.regions.get r).withCount ((t.regions.get r).count - 1)).blocksFilled
    = (t.regions.get r).blocksFilled := Region.blocksFilled_withCount ..
  have hmark : ((t.regions.get r).withCount ((t.regions.get r).count - 1)).pushed = false := by
    rw [Region.pushed_withCount, hpushed]
  generalize (t.regions.get r).withCount ((t.regions.get r).count - 1)
    = b at hleft hload hdeferred hblocks hmark ⊢
  by_cases hfreed : z.Freed p.regionWords p.objs (taken' · r) r
  · have havailable : b.count = 0 := hleft.trans hfreed.2
    have hload' :=
      (hload.trans (Region.sameLoad_withCount b claimedCount)).trans (Region.sameLoad_queued _)
    refine .freed hfreed (Region.isAvailable_iff.2 havailable) _
      (Region.claim_notePushed_eq havailable hmark)
      (RegionTable.recounted_setRegion ht.laid hr hload'
        (by rw [Region.deferred_queued, Region.deferred_withCount, hdeferred])
        (by rw [Region.blocksFilled_queued, Region.blocksFilled_withCount, hblocks]))
      (hcounted.take hp ht hz hkeep hlast htaken ?_ (iff_of_true rfl hfreed))
    rw [Zone.countOf_of_freed hfreed hdone, Region.count_queued, Region.count_withCount]
  · refine .owing hfreed ?_ (RegionTable.recounted_setRegion ht.laid hr hload hdeferred hblocks)
      (hcounted.take hp ht hz hkeep hlast htaken ?_
        (iff_of_false (by rw [hmark]; exact Bool.false_ne_true) hfreed))
    · rintro ⟨hlt, havailable⟩
      exact hfreed ⟨⟨hkeep, hlt⟩, hleft.symm.trans (Region.isAvailable_iff.1 havailable)⟩
    · rw [Zone.countOf_of_not_freed hfreed, hleft]

/-- The regions that become free when the `count` regions from region `r` on are released, each
once. -/
structure Frees (p : Plan) (z : Zone) (taken : ℕ → ℕ → Prop) (r count : ℕ)
    (fresh : List ℕ) : Prop where
  nodup : fresh.Nodup
  mem_iff : ∀ x, x ∈ fresh ↔ (r ≤ x ∧ x < r + count) ∧ z.Freed p.regionWords p.objs (taken · x) x

namespace Frees

variable {count : ℕ} {fresh : List ℕ}

lemma none : p.Frees z taken r 0 [] where
  nodup := List.nodup_nil
  mem_iff x := iff_of_false List.not_mem_nil fun ⟨hx, _⟩ => by omega

/-- The first region is freed too. -/
lemma freed (h : p.Frees z taken (r + 1) count fresh)
    (hfreed : z.Freed p.regionWords p.objs (taken · r) r) :
    p.Frees z taken r (count + 1) (fresh ++ [r]) where
  nodup := by
    refine List.nodup_append.2 ⟨h.nodup, List.nodup_singleton r, fun x hx y hy => ?_⟩
    have hbehind := ((h.mem_iff x).1 hx).1
    rw [List.mem_singleton] at hy
    omega
  mem_iff x := by
    rw [List.mem_append, List.mem_singleton, h.mem_iff]
    constructor
    · rintro (⟨hx, hfreed'⟩ | rfl)
      · exact ⟨by omega, hfreed'⟩
      · exact ⟨by omega, hfreed⟩
    · rintro ⟨hx, hfreed'⟩
      by_cases hfirst : x = r
      · exact .inr hfirst
      · exact .inl ⟨by omega, hfreed'⟩

/-- Data is still owed from the first region. -/
lemma owing (h : p.Frees z taken (r + 1) count fresh)
    (howing : ¬z.Freed p.regionWords p.objs (taken · r) r) :
    p.Frees z taken r (count + 1) fresh where
  nodup := h.nodup
  mem_iff x := by
    rw [h.mem_iff]
    refine and_congr_left fun hfreed => ⟨fun hx => by omega, fun hx => ?_⟩
    have hne : x ≠ r := by
      rintro rfl
      exact howing hfreed
    omega

end Frees

end Plan

namespace Heap

variable {μ : Type} {h : Heap μ} {count claimEnd : ℕ} {claimed : List ℕ}

/-- A destination releases the regions that it has taken its data from; those that become available
are claimed. -/
theorem releaseRegions_runs (hp : p.Valid) (ht : p.Loaded h.table)
    (hcounted : p.Counted h.table done taken) (hz : z ∈ p.zones)
    (hrange : ∀ x, r ≤ x → x < r + count → q < x ∧ x < z.last ∧ z.keep ≤ x
      ∧ z.Feeds p.regionWords p.objs x q ∧
      ¬taken q x ∧ ¬done x)
    (hclaimEnd : ∀ x, x < claimEnd ↔ x * p.regionWords < z.newTop p.regionWords p.objs)
    (htaken : ∀ q' x, taken' q' x ↔ taken q' x ∨ (q' = q ∧ r ≤ x ∧ x < r + count)) :
    Runs (releaseRegions claimEnd count r claimed) h fun claimed' h' => ∃ t' fresh,
      h' = { h with table := t' } ∧ RegionTable.Recounted p.objs h.table t'
        ∧ p.Counted t' done taken'
        ∧ claimed' = fresh ++ claimed ∧ p.Frees z taken' r count fresh := by
  induction count generalizing r h taken claimed with
  | zero =>
    obtain rfl : taken' = taken := funext fun q' => funext fun x =>
      propext ((htaken q' x).trans (or_iff_left fun hx => by omega))
    exact runs_pure.2 ⟨h.table, [], rfl, .refl _ _, hcounted, rfl, .none⟩
  | succ count ih =>
    obtain ⟨hqr, hlast, hkeep, hfeeds, hnot, hdone⟩ := hrange r (le_refl _) (by omega)
    have hr := ht.region_lt hp hz hlast
    let taken₁ : ℕ → ℕ → Prop := fun q' x => taken q' x ∨ (q' = q ∧ x = r)
    obtain ⟨hdata, b, hdecrement, hreleased⟩ :=
      hcounted.release hp ht taken₁ hz hqr hlast hkeep hfeeds hnot hdone fun _ _ => Iff.rfl
    have hcol : (taken' · r) = (taken₁ · r) :=
      funext fun q' => propext ((htaken q' r).trans (by simp [taken₁]))
    -- Either way the other regions are released from the changed table.
    have hrest : ∀ t₁, RegionTable.Recounted p.objs h.table t₁ →
        p.Counted t₁ done taken₁ → ∀ claimed₁,
        Runs (releaseRegions claimEnd count (r + 1) claimed₁) { h with table := t₁ }
          fun claimed' h' =>
          ∃ t' fresh, h' = { h with table := t' } ∧ RegionTable.Recounted p.objs h.table t'
            ∧ p.Counted t' done taken'
            ∧ claimed' = fresh ++ claimed₁ ∧ p.Frees z taken' (r + 1) count fresh := by
      intro t₁ hadv hcounted₁ claimed₁
      refine (ih (h := { h with table := t₁ }) (ht.advance hadv.toAdvances) hcounted₁
        (fun x h1 h2 => ?_) fun q' x => ?_).mono
        fun claimed' h' => ?_
      · obtain ⟨g1, g2, g3, g4, g5, g6⟩ := hrange x (by omega) (by omega)
        exact ⟨g1, g2, g3, g4, by simp only [taken₁, not_or]; exact ⟨g5, by omega⟩, g6⟩
      · rw [htaken q' x, show (r ≤ x ∧ x < r + (count + 1))
          ↔ x = r ∨ (r + 1 ≤ x ∧ x < r + 1 + count) by omega]
        simp only [taken₁]
        tauto
      · rintro ⟨t', fresh, rfl, hadv', hcounted', rfl, hfrees⟩
        exact ⟨t', fresh, rfl, hadv.trans hadv', hcounted', rfl, hfrees⟩
    rw [releaseRegions]
    simp only [runs_bind, runs_get, RegionTable.Laid.region_eq hr, runs_check_ok]
    rw [if_neg hdata, hdecrement, runs_bind, runs_check_ok]
    cases hreleased with
    | freed hfreed havailable a heq hadv hcounted₁ =>
      rw [if_pos ⟨(hclaimEnd r).2 hfreed.1.2, havailable⟩, runs_bind, heq, runs_check_ok, runs_bind,
        runs_modify]
      refine (hrest _ hadv hcounted₁ (r :: claimed)).mono fun claimed' h' => ?_
      rintro ⟨t', fresh, rfl, hadv', hcounted', rfl, hfrees⟩
      exact ⟨t', fresh ++ [r], rfl, hadv', hcounted', by simp, hfrees.freed (hcol ▸ hfreed)⟩
    | owing howing hunavailable hadv hcounted₁ =>
      rw [if_neg (by rw [hclaimEnd r]; exact hunavailable), runs_bind, runs_modify]
      refine (hrest _ hadv hcounted₁ claimed).mono fun claimed' h' => ?_
      rintro ⟨t', fresh, rfl, hadv', hcounted', rfl, hfrees⟩
      exact ⟨t', fresh, rfl, hadv', hcounted', rfl, hfrees.owing (hcol ▸ howing)⟩

end Heap

end MarkCompact
