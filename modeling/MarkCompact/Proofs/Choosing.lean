import MarkCompact.Proofs.Halving
import MarkCompact.Proofs.Plans

/-!
# Choosing a dense prefix

Whatever the two searches and the comparison of ratios come to, the dense prefix of a space that is
planned into itself ends at the start of one of its regions, below its top, and the choice never
fails: no planned region moves to the right, and to the left of a region there is no more dead space
than in the whole space.

Main statements: `Planned.choosePrefix_eq` and `computeDensePrefix_runs`.
-/

namespace MarkCompact

variable {objs : List Span} {t : RegionTable} {s : Space} {z : Zone}
  {beg budget count hi r stop : ℕ}

namespace RegionTable

lemma firstDeadSpace_eq (ht : t.MovesLeft beg (stop - 1)) (hlt : beg < stop) :
    ∃ r, t.firstDeadSpace beg stop = .ok r ∧ beg ≤ r ∧ r < stop := by
  obtain ⟨r, hends⟩ := Halving.ends t.DeadToTheLeft t.IsFull beg (stop - 1)
  obtain ⟨h1, h2⟩ := hends.between (by omega)
  exact ⟨r, firstDeadSpace_of_halving ht hlt hends, h1, by omega⟩

lemma deadToLeft_eq (hr : r < t.geometry.regionCount)
    (hle : (t.regions.get r).destination ≤ t.covered.addr (r * t.geometry.regionWords)) :
    t.deadToLeft r = .ok ((t.regionStart r - (t.regions.get r).destination) / bytesPerWord) := by
  rw [deadToLeft, Laid.region_eq hr, ok_bind, Laid.regionStart?_eq hr.le, ok_bind,
    if_neg (not_lt.2 hle), Laid.regionStart_eq]
  rfl

lemma deadWoodLimit_eq (ht : t.MovesLeft beg (stop - 1)) (hlt : beg < stop) :
    ∃ r, t.deadWoodLimit beg stop budget = .ok r ∧ beg ≤ r ∧ r < stop := by
  have hdead := fun r (h1 : beg ≤ r) (h2 : r < stop) =>
    deadToLeft_eq (ht r h1 (by omega)).1 (ht r h1 (by omega)).2
  obtain ⟨r, hends⟩ :=
    Halving.ends (fun r => budget < (t.regionStart r - (t.regions.get r).destination)
      / bytesPerWord)
    (fun r => (t.regionStart r - (t.regions.get r).destination) / bytesPerWord < budget)
      beg (stop - 1)
  obtain ⟨h1, h2⟩ := hends.between (by omega)
  exact ⟨r, deadWoodLimit_of_halving hdead hlt hends, h1, by omega⟩

/-- Whatever the ratios are, the best of some regions is one of them. -/
lemma bestRegion_eq {bottom top newTop best : ℕ} {ratio : Float}
    (h : ∀ x, r ≤ x → x < r + count → ∃ ratio, t.reclaimedRatio x bottom top newTop = .ok ratio) :
    ∃ k ratio', t.bestRegion bottom top newTop count r best ratio = .ok (k, ratio')
      ∧ (k = best ∨ r ≤ k ∧ k < r + count) := by
  induction count generalizing r best ratio with
  | zero => exact ⟨best, ratio, rfl, Or.inl rfl⟩
  | succ count ih =>
    obtain ⟨candidate, heq⟩ := h r le_rfl (by omega)
    rw [bestRegion, heq, ok_bind]
    split
    · obtain ⟨k, ratio', heq', hk⟩ := @ih (r + 1) r candidate fun x h1 h2 =>
        h x (by omega) (by omega)
      exact ⟨k, ratio', heq', Or.inr (by omega)⟩
    · obtain ⟨k, ratio', heq', hk⟩ := @ih (r + 1) best ratio fun x h1 h2 =>
        h x (by omega) (by omega)
      exact ⟨k, ratio', heq', hk.imp_right fun hk => by omega⟩

/-! ## A space that is planned into itself -/

/-- No planned region moves to the right. -/
lemma Planned.movesLeft (h : t.Planned objs z) (ht : t.Laid)
    (hz : z.Ordered t.geometry.regionWords t.covered.words)
    (hhi : hi * t.geometry.regionWords < z.top) : t.MovesLeft z.keep hi := by
  intro r h1 h2
  have hW := t.geometry.regionWords_pos
  have hr := Nat.mul_le_mul_right t.geometry.regionWords h2
  have htop := hz.top_le_last
  have hlast := hz.last_le
  rw [ht.covered_words] at hlast
  refine ⟨Nat.lt_of_mul_lt_mul_right (a := t.geometry.regionWords) (by omega), ?_⟩
  rw [h.destination r h1 ((lt_upTo_iff hW).2 (by omega)), Extent.addr_le_addr]
  exact Zone.packed_le (Nat.mul_le_mul_right _ h1)

/-- What compacting from a region on reclaims is no more than there is. -/
lemma Planned.reclaimedRatio_eq (h : t.Planned objs z) (ht : t.Laid)
    (hz : z.Ordered t.geometry.regionWords t.covered.words)
    (hlive : z.keep * t.geometry.regionWords < z.newTop t.geometry.regionWords objs)
    (h1 : z.keep ≤ r) (h2 : r * t.geometry.regionWords < z.top) :
    ∃ ratio, t.reclaimedRatio r (t.covered.addr (z.keep * t.geometry.regionWords))
      (t.covered.addr z.top)
      (t.covered.addr (z.newTop t.geometry.regionWords objs)) = .ok ratio := by
  have hW := t.geometry.regionWords_pos
  obtain ⟨hr, _⟩ := h.movesLeft ht hz h2 r h1 le_rfl
  have hkeep := Nat.mul_le_mul_right t.geometry.regionWords h1
  have hnewTop := hz.newTop_le objs
  have hmono := z.packed_mono t.geometry.regionWords objs h2.le
  have hlow := z.le_packed t.geometry.regionWords objs (r * t.geometry.regionWords)
  have hle : z.packed t.geometry.regionWords objs (r * t.geometry.regionWords)
      ≤ r * t.geometry.regionWords := Zone.packed_le hkeep
  -- As many words as follow the region are at least as many as are moved from it on.
  have hmoved : z.newTop t.geometry.regionWords objs
      ≤ z.packed t.geometry.regionWords objs (r * t.geometry.regionWords)
        + (z.top - r * t.geometry.regionWords) := by
    have hadd := @Zone.packed_add objs _ _ _ z hkeep h2.le
    have hlt := liveBelow_le_add objs h2.le
    rw [Zone.newTop]
    omega
  rw [Zone.newTop] at hlive hnewTop hmoved ⊢
  rw [reclaimedRatio, Laid.region_eq hr, ok_bind,
    if_neg (by simp only [Extent.addr_le_addr, Extent.addr_lt_addr]; omega),
    h.destination r h1 ((lt_upTo_iff hW).2 h2), if_neg (by simp only [Extent.addr_lt_addr]; omega)]
  simp only [Extent.addr_eq]
  rw [Word.delta_eq (by omega), ok_bind, Word.delta_eq (by omega), ok_bind,
    Laid.regionStart?_eq hr.le, ok_bind, Extent.addr_eq, Word.delta_eq (by omega), ok_bind,
    Word.sub_eq (by rw [bytesPerWord]; omega), ok_bind]
  exact ⟨_, rfl⟩

/-- The choice is a region of the space below its top. -/
theorem Planned.choosePrefix_eq (h : t.Planned objs z) (ht : t.Laid)
    (hz : z.Ordered t.geometry.regionWords t.covered.words) (hkeep : z.keep = z.first)
    (hs : s.Over t.covered t.geometry.regionWords z)
    (hnewTop : s.newTop = t.covered.addr (z.newTop t.geometry.regionWords objs))
    (hne : s.newTop ≠ s.bottom) (limiter : Limiter) :
    ∃ choice, t.choosePrefix s limiter = .ok choice ∧ z.first ≤ choice.region
      ∧ choice.region * t.geometry.regionWords < z.top := by
  have hW := t.geometry.regionWords_pos
  have hle := hz.newTop_le objs
  have hlow : z.keep * t.geometry.regionWords ≤ z.newTop t.geometry.regionWords objs :=
    z.le_packed _ _ _
  have hlast := hz.last_le
  have htop := hz.top_le_last
  have hlive : z.keep * t.geometry.regionWords < z.newTop t.geometry.regionWords objs := by
    rw [hnewTop, hs.bottom, Ne, Extent.addr_inj, ← hkeep] at hne
    omega
  have hupTo : upTo t.geometry.regionWords (z.newTop t.geometry.regionWords objs)
      ≤ upTo t.geometry.regionWords z.top :=
    upTo_mono hW hle
  have hbelow : ∀ r, r < upTo t.geometry.regionWords z.top → r * t.geometry.regionWords < z.top :=
    fun r => (lt_upTo_iff hW).1
  have hfirst : z.first < upTo t.geometry.regionWords (z.newTop t.geometry.regionWords objs) :=
    (lt_upTo_iff hW).2 (by rw [← hkeep]; exact hlive)
  have hmoves := fun (hi : ℕ) (hhi : hi < upTo t.geometry.regionWords z.top) =>
    hkeep ▸ h.movesLeft ht hz (hbelow hi hhi)
  rw [choosePrefix, hs.bottom, hs.top, hnewTop, ht.regionOf_addr (by rw [← hkeep]; omega), ok_bind,
    ht.regionUpTo_addr (by omega), ok_bind, ht.regionUpTo_addr (by omega), ok_bind,
    Nat.mul_div_cancel _ hW]
  obtain ⟨full, heq, hfull1, hfull2⟩ := firstDeadSpace_eq (hmoves _ (by omega)) hfirst
  rw [heq, ok_bind, Word.delta_eq (by rw [Extent.addr_le_addr, ← hkeep]; omega), ok_bind]
  extract_lets density limit
  have hused : (t.covered.addr (z.newTop t.geometry.regionWords objs) - t.covered.addr
      (z.first * t.geometry.regionWords))
      / bytesPerWord ≤ s.usedWords := by
    rw [Space.usedWords, hs.top, hs.bottom]
    exact Nat.div_le_div_right (Nat.sub_le_sub_right ((Extent.addr_le_addr ..).2 hle) _)
  rw [Word.sub_eq hused, ok_bind]
  extract_lets budget
  obtain ⟨limitRegion, heq, hlimit1, hlimit2⟩ : ∃ r,
      t.deadWoodLimit full (upTo t.geometry.regionWords z.top) budget = .ok r
      ∧ full ≤ r ∧ r < upTo t.geometry.regionWords z.top :=
    deadWoodLimit_eq (fun r h1 h2 => hmoves _ (show upTo t.geometry.regionWords z.top - 1 < _ by
      omega) r (by omega) h2)
      (by omega)
  rw [heq, ok_bind]
  have hratio := fun x (h1 : full ≤ x) (h2 : x < full + (limitRegion - full)) =>
    h.reclaimedRatio_eq ht hz hlive (show z.keep ≤ x by omega) (hbelow x (by omega))
  rw [hkeep] at hratio
  obtain ⟨k, ratio, heq, hk⟩ := @bestRegion_eq t (limitRegion - full) full _ _ _ full 0.0 hratio
  rw [heq, ok_bind]
  exact ⟨_, rfl, by dsimp only; omega, hbelow k (by omega)⟩

end RegionTable

namespace Heap

variable {μ : Type} {h : Heap μ} {i : ℕ}

/-- The dense prefix of a space that is planned into itself ends at one of its regions, and nothing
but the log changes. It is empty in a maximum compaction and if nothing is live, and otherwise it is
as it was chosen. -/
theorem computeDensePrefix_runs (hc : h.Consistent objs) (hspace : h.spaces[i]? = some s)
    (hs : s.Over h.table.covered h.table.geometry.regionWords z)
    (hz : z.Ordered h.table.geometry.regionWords h.table.covered.words) (hkeep : z.keep = z.first)
    (hplanned : h.table.Planned objs z)
    (hnewTop : s.newTop = h.table.covered.addr (z.newTop h.table.geometry.regionWords objs))
    (limiter : Limiter) (maximum : Bool) :
    Runs (computeDensePrefix i limiter maximum) h fun boundary h' => ∃ k log, h' = { h with log }
      ∧ boundary = h.table.covered.addr (k * h.table.geometry.regionWords) ∧ z.first ≤ k
      ∧ (z.first < k → k * h.table.geometry.regionWords < z.top)
      ∧ if s.newTop = s.bottom ∨ maximum then k = z.first
        else ∃ choice, h.table.choosePrefix s limiter = .ok choice ∧ choice.region = k := by
  rw [computeDensePrefix]
  simp only [runs_bind, runs_get]
  rw [space_eq hspace, runs_check_ok]
  split
  · rw [runs_pure]
    exact ⟨z.first, h.log, rfl, hs.bottom, le_rfl, fun hlt => absurd hlt (lt_irrefl _), rfl⟩
  · rename_i hnot
    obtain ⟨choice, heq, h1, h2⟩ := hplanned.choosePrefix_eq hc.laid hz hkeep hs hnewTop
      (fun hsame => hnot (Or.inl hsame)) limiter
    have htop := hz.top_le_last
    have hlast := hz.last_le
    rw [hc.laid.covered_words] at hlast
    have hcount : choice.region < h.table.geometry.regionCount :=
      Nat.lt_of_mul_lt_mul_right (a := h.table.geometry.regionWords) (by omega)
    rw [runs_bind, heq, runs_check_ok, runs_bind, runs_report,
      RegionTable.Laid.regionStart?_eq hcount.le, runs_check_ok]
    exact ⟨choice.region, _, rfl, rfl, h1, fun _ => h2, choice, rfl, rfl⟩

end Heap

end MarkCompact
