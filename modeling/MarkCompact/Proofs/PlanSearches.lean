import MarkCompact.Proofs.Choosing

/-!
# What the searches over a plan find

Two binary searches lead to a dense prefix.  The first one is for the end of the leading run of full
regions, and is exact up to its right end: if every region of its range is full, it names the last
one.  The second one is for the end of a budget of dead words, and splits its range: the regions in
front of what it finds have at most so many dead words to their left, and those behind it have at
least as many.

What has been passed on either side of the two bounds stays true from probe to probe
(`Halving.keeps`).

Main statements: `firstDeadSpace_spec`, `deadWoodLimit_spec` and `Planned.heeds` (what they lead
to).
-/

namespace MarkCompact

variable {objs : List Span} {z : Zone} {W q r : ℕ}

/-! ## Dead words to the left -/

namespace Zone

/-- The dead words of the zone that lie left of region `r`. -/
def deadLeft (z : Zone) (W : ℕ) (objs : List Span) (r : ℕ) : ℕ :=
  r * W - z.packed W objs (r * W)

/-- The plan grows by the data of a region. -/
lemma packed_succ (hr : z.keep ≤ r) :
    z.packed W objs ((r + 1) * W) = z.packed W objs (r * W) + dataOf objs W r := by
  have hdata := liveBelow_add_dataOf objs W r
  rw [z.packed_add (Nat.mul_le_mul_right W hr) (Nat.mul_le_mul_right W
    (show r ≤ r + 1 from Nat.le_succ r))]
  omega

/-- More regions have more dead words. -/
lemma deadLeft_mono (hq : z.keep ≤ q) (hqr : q ≤ r) :
    z.deadLeft W objs q ≤ z.deadLeft W objs r := by
  have hle := Nat.mul_le_mul_right W hqr
  have hkeep := Nat.mul_le_mul_right W hq
  have hadd : z.packed W objs (r * W) = _ := z.packed_add hkeep hle
  have hlive := liveBelow_le_add objs hle
  rw [deadLeft, deadLeft]
  omega

/-- A region is planned to stay exactly if the regions in front of it are full. -/
lemma packed_eq_iff (hr : z.keep ≤ r) :
    z.packed W objs (r * W) = r * W ↔ ∀ q, z.keep ≤ q → q < r → dataOf objs W q = W := by
  induction r, hr using Nat.le_induction with
  | base => exact iff_of_true (z.packed_keep W objs) fun q h1 h2 => absurd h2 (not_lt.2 h1)
  | succ r hr ih =>
    have hpacked : z.packed W objs (r * W) ≤ r * W := packed_le (Nat.mul_le_mul_right W hr)
    have hdata := dataOf_le objs W r
    rw [packed_succ hr, Nat.succ_mul]
    constructor
    · intro heq q h1 h2
      rcases Nat.lt_succ_iff_lt_or_eq.1 h2 with hlt | rfl
      · exact ih.1 (by omega) q h1 hlt
      · omega
    · intro hfull
      rw [ih.2 fun q h1 h2 => hfull q h1 (by omega), hfull r hr (Nat.lt_succ_self r)]

end Zone

namespace RegionTable

variable {t : RegionTable} {s : Space} {beg budget count hi left lo right stop tries : ℕ}

/-! ## The end of the full regions -/

/-- Every region from `lo` up to, not including, `r` is full. -/
def FullUpTo (t : RegionTable) (lo r : ℕ) : Prop :=
  ∀ q, lo ≤ q → q < r → (t.regions.get q).dataWords = t.geometry.regionWords

lemma FullUpTo.mono (h : t.FullUpTo lo r) (hqr : q ≤ r) : t.FullUpTo lo q :=
  fun x h1 h2 => h x h1 (lt_of_lt_of_le h2 hqr)

lemma FullUpTo.succ (h : t.FullUpTo lo r)
    (hr : (t.regions.get r).dataWords = t.geometry.regionWords) :
    t.FullUpTo lo (r + 1) := fun q h1 h2 => by
  rcases Nat.lt_succ_iff_lt_or_eq.1 h2 with hlt | rfl
  · exact h q h1 hlt
  · exact hr

/-- The regions from `lo` up to `hi`, itself included, are packed to the left: none moves to the
right, and one stays where it is exactly if those in front of it are full. -/
structure PacksLeft (t : RegionTable) (lo hi : ℕ) : Prop where
  moves : t.MovesLeft lo hi
  stays_iff : ∀ r, lo ≤ r → r ≤ hi →
    ((t.regions.get r).destination = t.covered.addr (r * t.geometry.regionWords) ↔ t.FullUpTo lo r)

/-- There is no dead space in front of a region exactly if the regions in front of it are full. -/
lemma PacksLeft.not_dead_iff (ht : t.PacksLeft lo hi) (h1 : lo ≤ r) (h2 : r ≤ hi) :
    ¬t.DeadToTheLeft r ↔ t.FullUpTo lo r := by
  have hmoves := (ht.moves r h1 h2).2
  rw [← ht.stays_iff r h1 h2, DeadToTheLeft, not_lt, Laid.regionStart_eq, le_antisymm_iff,
    and_iff_right hmoves]

/-- The regions in front of the end of a search are full; it is not full itself, or the last one of
the range. -/
lemma PacksLeft.halving (ht : t.PacksLeft lo hi) (hle : lo ≤ hi)
    (h : Halving t.DeadToTheLeft t.IsFull lo hi found) :
    lo ≤ found ∧ found ≤ hi ∧ t.FullUpTo lo found ∧ (found < hi → ¬t.FullUpTo lo (found + 1)) := by
  have htells : Halving.Tells t.DeadToTheLeft t.IsFull (t.FullUpTo lo)
      (fun r => r < hi → ¬t.FullUpTo lo (r + 1)) lo hi :=
    { of_far := fun m h1 h2 hdead _ hfull =>
        (ht.not_dead_iff h1 h2).2 (hfull.mono (Nat.le_add_of_sub_le le_rfl)) hdead
      of_not_far := fun m h1 h2 => (ht.not_dead_iff h1 h2).1
      of_near := fun m _ _ => FullUpTo.succ
      of_not_near := fun m h1 _ hnot _ hfull => hnot (hfull m h1 (Nat.lt_succ_self m)) }
  exact h.keeps htells le_rfl hle le_rfl (fun q h1 h2 => absurd h2 (not_lt.2 h1)) fun hlt =>
    absurd hlt (lt_irrefl _)

/-- The regions in front of what is found are full; it is not full itself, or the last one of the
range. -/
lemma firstDeadSpace_spec (ht : t.PacksLeft beg (stop - 1)) (hlt : beg < stop) :
    ∃ r, t.firstDeadSpace beg stop = .ok r ∧ beg ≤ r ∧ r < stop ∧ t.FullUpTo beg r
      ∧ (r + 1 < stop → ¬t.FullUpTo beg (r + 1)) := by
  obtain ⟨r, hends⟩ := Halving.ends t.DeadToTheLeft t.IsFull beg (stop - 1)
  obtain ⟨h1, h2, hfull, hnext⟩ := ht.halving (by omega) hends
  exact ⟨r, firstDeadSpace_of_halving ht.moves hlt hends, h1, by omega, hfull,
    fun hlt => hnext (by omega)⟩

/-- Of two full regions the second one is found. -/
example : (((empty ⟨64, 128⟩ (Geometry.ofLogs 2 1 4 (by decide))).setRegion 0
    { destination := 64, partialWords := 4 }).setRegion 1
      { destination := 96, partialWords := 4 }).firstDeadSpace 0 2
      = .ok 1 :=
  rfl

/-! ## The end of the budget -/

/-- What is in front of the end of a search stays within the budget, and what is behind it uses the
budget up. -/
lemma splits_of_halving {dead : ℕ → ℕ} (hmono : ∀ q r, lo ≤ q → q ≤ r → r ≤ hi → dead q ≤ dead r)
    (hle : lo ≤ hi) (h : Halving (budget < dead ·) (dead · < budget) lo hi found) :
    lo ≤ found ∧ found ≤ hi ∧ (∀ q, lo ≤ q → q < found → dead q ≤ budget) ∧ ∀ q, found < q →
    q ≤ hi → budget ≤ dead q := by
  have htells : Halving.Tells (budget < dead ·) (dead · < budget)
      (fun r => ∀ q, lo ≤ q → q < r → dead q ≤ budget)
      (fun r => ∀ q, r < q → q ≤ hi → budget ≤ dead q) lo hi :=
    { of_far := fun m h1 h2 hover q h3 h4 => hover.le.trans (hmono m q h1 (by omega) h4)
      of_not_far := fun m h1 h2 hnot q h3 h4 => (hmono q m h3 h4.le h2).trans (not_lt.1 hnot)
      of_near := fun m h1 h2 _ hunder q h3 h4 => (hmono q m h3 (by omega) h2).trans hunder.le
      of_not_near := fun m h1 h2 hnot q h3 h4 => (not_lt.1 hnot).trans (hmono m q h1 h3.le h4) }
  exact h.keeps htells le_rfl hle le_rfl (fun q h1 h2 => absurd h2 (not_lt.2 h1)) fun q h1 h2 =>
    absurd h1 (not_lt.2 h2)

/-- What is found splits the range. -/
lemma deadWoodLimit_spec {dead : ℕ → ℕ}
    (hdead : ∀ r, beg ≤ r → r < stop → t.deadToLeft r = .ok (dead r))
    (hmono : ∀ q r, beg ≤ q → q ≤ r → r < stop → dead q ≤ dead r) (hlt : beg < stop) :
    ∃ r, t.deadWoodLimit beg stop budget = .ok r ∧ beg ≤ r ∧ r < stop
      ∧ (∀ q, beg ≤ q → q < r → dead q ≤ budget) ∧ ∀ q, r < q → q < stop → budget ≤ dead q := by
  obtain ⟨r, hends⟩ := Halving.ends (budget < dead ·) (dead · < budget) beg (stop - 1)
  obtain ⟨h1, h2, hbefore, hbehind⟩ :=
    splits_of_halving (fun q r h1 h2 h3 => hmono q r h1 h2 (by omega)) (by omega) hends
  exact ⟨r, deadWoodLimit_of_halving hdead hlt hends, h1, by omega, hbefore,
    fun q h1 h2 => hbehind q h1 (by omega)⟩

/-! ## A space that is planned into itself -/

section

variable (h : t.Planned objs z) (ht : t.Laid)
  (hz : z.Ordered t.geometry.regionWords t.covered.words)
include h

/-- A full region of the space has no dead word. -/
lemma Planned.fullUpTo_iff (hr : r ≤ z.last) : t.FullUpTo z.keep r
    ↔ ∀ q, z.keep ≤ q → q < r → dataOf objs t.geometry.regionWords q = t.geometry.regionWords := by
  refine forall_congr' fun q => forall_congr' fun h1 => forall_congr' fun h2 => ?_
  rw [(h.accounted.accounts q h1 (by omega)).data_eq]

include ht hz

/-- The regions below the top are packed to the left. -/
lemma Planned.packsLeft (hhi : hi * t.geometry.regionWords < z.top) : t.PacksLeft z.keep hi := by
  refine ⟨h.movesLeft ht hz hhi, fun r h1 h2 => ?_⟩
  have hW := t.geometry.regionWords_pos
  have hr := Nat.mul_le_mul_right t.geometry.regionWords h2
  have htop := hz.top_le_last
  have hlast : r < z.last := Nat.lt_of_mul_lt_mul_right (a := t.geometry.regionWords) (by omega)
  rw [h.destination r h1 ((lt_upTo_iff hW).2 (by omega)), Extent.addr_inj, Zone.packed_eq_iff h1,
    h.fullUpTo_iff hlast.le]

/-- The dead words to the left of a region below the top are as planned. -/
lemma Planned.deadToLeft_eq (h1 : z.keep ≤ r) (h2 : r * t.geometry.regionWords < z.top) :
    t.deadToLeft r = .ok (z.deadLeft t.geometry.regionWords objs r) := by
  have hW := t.geometry.regionWords_pos
  obtain ⟨hr, hle⟩ := h.movesLeft ht hz h2 r h1 le_rfl
  rw [RegionTable.deadToLeft_eq hr hle, h.destination r h1 ((lt_upTo_iff hW).2 h2),
    Laid.regionStart_eq, Zone.deadLeft, Extent.addr_eq, Extent.addr_eq, bytesPerWord]
  refine congrArg Except.ok ?_
  omega

end

/-! ## What they lead to -/

/-- The best region is the one that it is compared with at first, or one of those compared. -/
lemma bestRegion_ok {bottom top newTop best k : ℕ} {ratio ratio' : Float}
    (h : t.bestRegion bottom top newTop count r best ratio = .ok (k, ratio')) :
    k = best ∨ r ≤ k ∧ k < r + count := by
  induction count generalizing r best ratio with
  | zero =>
    cases pure_eq_ok_iff.1 h
    exact Or.inl rfl
  | succ count ih =>
    rw [bestRegion] at h
    obtain ⟨candidate, -, h⟩ := bind_eq_ok_iff.1 h
    split at h
    · have hk := ih h
      omega
    · have hk := ih h
      omega

/-- How a choice comes about. -/
lemma choosePrefix_ok {l : Limiter} {choice : PrefixChoice} (h : t.choosePrefix s l = .ok choice) :
    ∃ beg topRegion newTopRegion live dead, t.regionOf s.bottom = .ok beg
      ∧ t.regionUpTo s.top = .ok topRegion
      ∧ t.regionUpTo s.newTop = .ok newTopRegion
        ∧ t.firstDeadSpace beg newTopRegion = .ok choice.fullRegion
      ∧ Word.delta s.newTop s.bottom = .ok live ∧ Word.sub s.usedWords live = .ok dead
      ∧ choice.budget = deadWoodBudget s.capacityWords dead
        (l.limit (wordToFloat live / wordToFloat s.capacityWords) s.deadRatio)
      ∧ t.deadWoodLimit choice.fullRegion topRegion choice.budget = .ok choice.limitRegion
      ∧ (choice.region = choice.fullRegion ∨ choice.fullRegion ≤ choice.region
        ∧ choice.region < choice.limitRegion) := by
  rw [choosePrefix] at h
  obtain ⟨beg, hbeg, h⟩ := bind_eq_ok_iff.1 h
  obtain ⟨topRegion, htop, h⟩ := bind_eq_ok_iff.1 h
  obtain ⟨newTopRegion, hnewTop, h⟩ := bind_eq_ok_iff.1 h
  obtain ⟨full, hfull, h⟩ := bind_eq_ok_iff.1 h
  obtain ⟨live, hlive, h⟩ := bind_eq_ok_iff.1 h
  obtain ⟨dead, hdead, h⟩ := bind_eq_ok_iff.1 h
  obtain ⟨limitRegion, hlimit, h⟩ := bind_eq_ok_iff.1 h
  obtain ⟨⟨k, ratio⟩, hbest, h⟩ := bind_eq_ok_iff.1 h
  cases pure_eq_ok_iff.1 h
  refine ⟨beg, topRegion, newTopRegion, live, dead, hbeg, htop, hnewTop, hfull, hlive, hdead,
    rfl, hlimit, ?_⟩
  have hk := bestRegion_ok hbest
  dsimp only
  omega

/-- The choice for a space that is planned into itself does not end in front of the leading full
regions, and the dead words that it keeps stay within the budget. -/
structure Heeds (t : RegionTable) (objs : List Span) (z : Zone) (s : Space) (limiter : Limiter)
    (choice : PrefixChoice) : Prop where
  full : t.FullUpTo z.first choice.fullRegion
  full_lt : choice.fullRegion < upTo t.geometry.regionWords (z.newTop t.geometry.regionWords objs)
  not_full : choice.fullRegion + 1 < upTo t.geometry.regionWords
    (z.newTop t.geometry.regionWords objs) →
    ¬t.FullUpTo z.first (choice.fullRegion + 1)
  full_le : choice.fullRegion ≤ choice.region
  dead_le : z.deadLeft t.geometry.regionWords objs choice.region ≤ choice.budget
  budget_eq : choice.budget = deadWoodBudget s.capacityWords
    (s.usedWords - (z.newTop t.geometry.regionWords objs - z.first * t.geometry.regionWords))
    (limiter.limit (wordToFloat
      (z.newTop t.geometry.regionWords objs - z.first * t.geometry.regionWords)
      / wordToFloat s.capacityWords) s.deadRatio)

/-- Both searches are exact enough for that. -/
theorem Planned.heeds (h : t.Planned objs z) (ht : t.Laid)
    (hz : z.Ordered t.geometry.regionWords t.covered.words) (hkeep : z.keep = z.first)
    (hs : s.Over t.covered t.geometry.regionWords z)
    (hnewTop : s.newTop = t.covered.addr (z.newTop t.geometry.regionWords objs))
    (hne : s.newTop ≠ s.bottom) {limiter : Limiter} {choice : PrefixChoice}
    (hchoice : t.choosePrefix s limiter = .ok choice) :
    t.Heeds objs z s limiter choice := by
  have hW := t.geometry.regionWords_pos
  have hle := hz.newTop_le objs
  have hlow : z.keep * t.geometry.regionWords ≤ z.newTop t.geometry.regionWords objs :=
    z.le_packed _ _ _
  have hlast := hz.last_le
  have htop := hz.top_le_last
  have hbottom : z.keep * t.geometry.regionWords = z.first * t.geometry.regionWords := by rw [hkeep]
  have hlive : z.keep * t.geometry.regionWords < z.newTop t.geometry.regionWords objs := by
    rw [hnewTop, hs.bottom, Ne, Extent.addr_inj] at hne
    omega
  have hbelow : ∀ r, r < upTo t.geometry.regionWords z.top → r * t.geometry.regionWords < z.top :=
    fun r => (lt_upTo_iff hW).1
  have hupTo : upTo t.geometry.regionWords (z.newTop t.geometry.regionWords objs)
      ≤ upTo t.geometry.regionWords z.top :=
    upTo_mono hW hle
  have hbeg : z.keep < upTo t.geometry.regionWords (z.newTop t.geometry.regionWords objs) :=
    (lt_upTo_iff hW).2 hlive
  obtain ⟨beg, topRegion, newTopRegion, live, dead, hregion, htopRegion, hnewTopRegion, hfull,
      hdelta, hsub, hbudget,
    hlimit, hk⟩ := choosePrefix_ok hchoice
  -- The bounds of the searches.
  rw [hs.bottom, ← hkeep, ht.regionOf_addr (by omega), Nat.mul_div_cancel _ hW] at hregion
  rw [hs.top, ht.regionUpTo_addr (by omega)] at htopRegion
  rw [hnewTop, ht.regionUpTo_addr (by omega)] at hnewTopRegion
  rw [hnewTop, hs.bottom, Extent.delta_addr (by omega)] at hdelta
  cases hregion
  cases htopRegion
  cases hnewTopRegion
  cases hdelta
  obtain ⟨-, rfl⟩ := Word.sub_eq_ok_iff.1 hsub
  obtain ⟨full, heq, hfull1, hfull2, hfullUpTo, hnot⟩ :=
    firstDeadSpace_spec
      (h.packsLeft ht hz (hbelow _ ((Nat.sub_lt (by omega) one_pos).trans_le hupTo))) hbeg
  cases heq.symm.trans hfull
  obtain ⟨limitRegion, heq, -, hlimit2, hbefore, -⟩ := deadWoodLimit_spec
    (fun r h1 h2 => h.deadToLeft_eq ht hz (by omega) (hbelow r h2))
      (fun q r h1 h2 _ => z.deadLeft_mono (by omega) h2)
    (show choice.fullRegion < upTo t.geometry.regionWords z.top by omega)
  cases heq.symm.trans hlimit
  have hnone : z.deadLeft t.geometry.regionWords objs choice.fullRegion = 0 := by
    have hlt : choice.fullRegion < z.last :=
      Nat.lt_of_mul_lt_mul_right (a := t.geometry.regionWords) ((hbelow _ (by omega)).trans_le htop)
    rw [Zone.deadLeft, (Zone.packed_eq_iff hfull1).2 ((h.fullUpTo_iff hlt.le).1 hfullUpTo),
      Nat.sub_self]
  exact
    { full := hkeep ▸ hfullUpTo
      full_lt := hfull2
      not_full := fun hlt => hkeep ▸ hnot hlt
      full_le := by omega
      dead_le := by
        rcases hk with heq | ⟨h1, h2⟩
        · rw [heq, hnone]
          exact Nat.zero_le _
        · exact hbefore _ h1 h2
      budget_eq := hbudget }

end RegionTable

end MarkCompact
