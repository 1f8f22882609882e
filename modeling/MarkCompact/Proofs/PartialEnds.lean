import MarkCompact.Proofs.Measures

/-!
# Where partial objects end

A region knows how many of its words belong to the object that reaches in from the left, but not how
far that object goes. The end is found by joining what the regions from there on know, as long as a
region is covered completely.  This never runs on into another object: where an object ends at the
start of a region, no object reaches into that region.

Main statements: `Laid.partialEnd_eq` and `accountObjects_partialEnd`.
-/

namespace MarkCompact

variable {objs os : List Span} {W n r : ℕ}

/-! ## One region after the other -/

/-- An object that covers the region ends at its end or reaches into the next one. -/
lemma reach_succ_of_partialOf (hsep : Separate objs) (heq : partialOf objs W r = W) :
    reach objs ((r + 1) * W) = reach objs (r * W) := by
  have hle := le_reach hsep (r * W)
  rw [partialOf] at heq
  rw [Nat.succ_mul]
  rcases boundary_or_crosses hsep (r * W) with ⟨_, hreach⟩ | ⟨o, ho, hcross, hreach⟩
  · rw [hreach] at heq ⊢
    obtain rfl : W = 0 := by omega
    simpa using hreach
  · rw [hreach] at heq ⊢
    rcases Nat.eq_or_lt_of_le (show r * W + W ≤ o.past by omega) with hend | hlt
    · rw [hend]
      exact reach_eq_of_boundary (hsep.boundary_past ho)
    · exact reach_eq_of_crosses hsep ho ⟨by have := hcross.1; omega, hlt⟩

namespace RegionTable

variable {t : RegionTable}

/-! ## All regions of an object -/

section

variable (hsep : Separate objs) (hn : n ≤ t.geometry.regionCount)
  (hb : Boundary objs (n * t.geometry.regionWords))
  (hpartial : ∀ q, r ≤ q → q ≤ n → q < t.geometry.regionCount →
    (t.regions.get q).partialWords = partialOf objs t.geometry.regionWords q)
  (hr : r ≤ n)
include hsep hn hb hpartial hr

/-- The partial objects that are joined to a region make up the object that reaches into it. -/
lemma joinedPartials_eq {tries before : ℕ} (htries : t.geometry.regionCount - r < tries) :
    r * t.geometry.regionWords + t.joinedPartials tries r before
      = reach objs (r * t.geometry.regionWords) + before := by
  have hW := t.geometry.regionWords_pos
  have hend : partialOf objs t.geometry.regionWords n = 0 := by
    rw [partialOf, reach_eq_of_boundary hb]
    omega
  induction tries generalizing r before with
  | zero => omega
  | succ tries ih =>
    rw [joinedPartials]
    by_cases hcount : r < t.geometry.regionCount
    · have hle := partialOf_le objs t.geometry.regionWords r
      rw [if_pos hcount, hpartial r le_rfl hr hcount]
      by_cases hfull : partialOf objs t.geometry.regionWords r = t.geometry.regionWords
      · -- The object covers the region, so that this is not the last one, and goes on in the next.
        have hne : r ≠ n := fun heq => by rw [← heq] at hend; omega
        rw [if_pos hfull, hfull]
        have hrest : (r + 1) * t.geometry.regionWords
            + t.joinedPartials tries (r + 1) (before + t.geometry.regionWords) = _ :=
          ih (fun q h1 h2 h3 => hpartial q (by omega) h2 h3) (show r + 1 ≤ n by omega) (by omega)
        rw [reach_succ_of_partialOf hsep hfull, Nat.succ_mul] at hrest
        omega
      · rw [if_neg hfull, reach_eq_add_partialOf hsep (by omega)]
        omega
    · obtain rfl : r = n := by omega
      rw [if_neg hcount, reach_eq_of_boundary hb]

/-- The end of the object that reaches into a region. -/
theorem Laid.partialEnd_eq (ht : t.Laid) :
    t.partialEnd r = .ok (t.covered.addr (reach objs (r * t.geometry.regionWords))) := by
  have hjoined : r * t.geometry.regionWords + t.joinedPartials (t.geometry.regionCount - r + 1) r 0
      = reach objs (r * t.geometry.regionWords) + 0 :=
        joinedPartials_eq hsep hn hb hpartial hr (Nat.lt_succ_self _)
  have hreach : reach objs (r * t.geometry.regionWords) ≤ n * t.geometry.regionWords :=
    reach_le hsep (Nat.mul_le_mul_right _ hr) hb
  have hwords := Nat.mul_le_mul_right t.geometry.regionWords hn
  rw [← ht.covered_words] at hwords
  have hsize := ht.size_words
  have hlt := ht.covered_lt
  rw [partialEnd, Laid.regionStart?_eq (hr.trans hn), ok_bind, Word.add_eq]
  · rw [Extent.addr_add, hjoined, Nat.add_zero]
  · rw [Extent.addr_add, hjoined, Nat.add_zero, Extent.addr_eq]
    omega

end

/-! ## A table of accounted objects -/

/-- Objects that have no word in common are accounted in a cleared table, in any order.  Then the
partial object of every region ends where the object does that starts in front of the region and
reaches into it; if there is none, it is empty. -/
theorem accountObjects_partialEnd (ht : t.Laid) (hcleared : t.Cleared) (hsep : Separate os)
    (hpast : ∀ o ∈ os, o.past ≤ t.covered.words) :
    ∃ t', Heap.accountObjects (os.map (Span.run · t.covered)) t = .ok t'
      ∧ ∀ r, r < t.geometry.regionCount →
        (∀ o ∈ os, o.Crosses (r * t.geometry.regionWords) →
          t'.partialEnd r = .ok (t.covered.addr o.past))
        ∧ (Boundary os (r * t.geometry.regionWords) → t'.partialEnd r = .ok (t.regionStart r)) := by
  obtain ⟨t', heq, hshape, hmeasured⟩ := ht.accountObjects_eq hcleared hsep hpast
  have hpartial : ∀ q, (t'.regions.get q).partialWords = partialOf os t'.geometry.regionWords q :=
    fun q =>
    ((Region.measures_iff_accounts hsep t'.geometry.regionWords_pos).1
      (hmeasured q).measures).partial_eq
  -- No object reaches across the end of the covered range.
  have hb : Boundary os (t'.geometry.regionCount * t'.geometry.regionWords) := fun o ho hcross => by
    rw [hshape.geometry, ← ht.covered_words] at hcross
    exact absurd hcross.2 (not_lt.2 (hpast o ho))
  refine ⟨t', heq, fun r hr => ?_⟩
  have hend : t'.partialEnd r = .ok (t'.covered.addr (reach os (r * t'.geometry.regionWords))) :=
    (hshape.laid ht).partialEnd_eq hsep le_rfl hb
      (fun q _ _ _ => hpartial q) (by rw [hshape.geometry]; exact hr.le)
  rw [hshape.covered, hshape.geometry] at hend
  refine ⟨fun o ho hcross => ?_, fun hnone => ?_⟩
  · rw [hend, reach_eq_of_crosses hsep ho hcross]
  · rw [hend, reach_eq_of_boundary hnone, Laid.regionStart_eq]

/-- An object over four regions that ends where the fifth starts, and one that ends with the covered
range.  A third one starts where the first one ends. -/
theorem accountObjects_partialEnd_spans :
    ∃ t', Heap.accountObjects ([(⟨18, 14⟩ : Span), ⟨3, 13⟩, ⟨16, 2⟩].map (Span.run · ⟨4096, 256⟩))
        (RegionTable.empty ⟨4096, 256⟩ (.ofLogs 2 1 8 (by decide))) = .ok t'
      ∧ t'.partialEnd 0 = .ok 4096 ∧ t'.partialEnd 1 = .ok (4096 + 8 * 16)
      ∧ t'.partialEnd 3 = .ok (4096 + 8 * 16)
      ∧ t'.partialEnd 4 = .ok (4096 + 8 * 16) ∧ t'.partialEnd 5 = .ok (4096 + 8 * 32) := by
  have hsep : Separate [(⟨18, 14⟩ : Span), ⟨3, 13⟩, ⟨16, 2⟩] :=
    ⟨by decide, by simp [Span.Apart, Span.past]⟩
  have ht : (RegionTable.empty ⟨4096, 256⟩ (.ofLogs 2 1 8 (by decide))).Laid :=
    laid_empty (by decide) (by decide) (by decide) (by decide)
  obtain ⟨t', heq, hends⟩ := accountObjects_partialEnd ht (cleared_empty _ _) hsep (by decide)
  exact ⟨t', heq, (hends 0 (by decide)).2 (by unfold Boundary; decide),
    (hends 1 (by decide)).1 ⟨3, 13⟩ (by decide) (by decide),
    (hends 3 (by decide)).1 ⟨3, 13⟩ (by decide) (by decide),
    (hends 4 (by decide)).2 (by unfold Boundary; decide),
    (hends 5 (by decide)).1 ⟨18, 14⟩ (by decide) (by decide)⟩

end RegionTable

end MarkCompact
