import Mathlib.Order.Interval.Finset.Nat
import MarkCompact.Proofs.Decisions
import MarkCompact.Proofs.PlanSearches

/-!
# What a dense prefix keeps

The dead words in the dense prefix of a space stay within a budget: a fraction of the capacity,
which the limiter sets, but no more than compaction could reclaim at all.  And the prefix does not
stop short in the leading run of full regions, except that the last of them may be left out if it is
where the data ends.

Main statements: `densePrefix_within_budget` and `fullRegions_in_densePrefix`.
-/

namespace MarkCompact

variable {objs os others : List Span} {W a b r : ℕ} {z : Zone}

/-! ## Dead words -/

/-- The number of dead words from word `a` up to, not including, word `b`. -/
def deadWords (objs : List Span) (a b : ℕ) : ℕ :=
  ((Finset.Ico a b).filter fun w => ¬Live objs w).card

/-- Words are live or dead. -/
lemma deadWords_add (hab : a ≤ b) :
    deadWords objs a b + (liveBelow objs b - liveBelow objs a) = b - a := by
  induction b, hab using Nat.le_induction with
  | base => simp [deadWords]
  | succ b hab ih =>
    have hmono := liveBelow_mono objs hab
    have hlive := liveBelow_succ objs b
    have hinsert : Finset.Ico a (b + 1) = insert b (Finset.Ico a b) := by
      ext w
      simp only [Finset.mem_Ico, Finset.mem_insert]
      omega
    rw [deadWords, hinsert, Finset.filter_insert]
    by_cases hb : Live objs b
    · rw [if_pos hb] at hlive
      rw [if_neg (not_not.2 hb), ← deadWords]
      omega
    · rw [if_neg hb] at hlive
      rw [if_pos hb, Finset.card_insert_of_notMem (by simp), ← deadWords]
      omega

lemma deadWords_congr (hsame : ∀ w, a ≤ w → w < b → (Live objs w ↔ Live os w)) :
    deadWords objs a b = deadWords os a b := by
  refine congrArg Finset.card (Finset.filter_congr fun w hw => ?_)
  obtain ⟨h1, h2⟩ := Finset.mem_Ico.1 hw
  rw [hsame w h1 h2]

/-- In a space that is planned into itself, they are the dead words to the left of a region. -/
lemma Zone.deadWords_eq (hkeep : z.keep = z.first) (hr : z.first ≤ r) :
    deadWords objs (z.first * W) (r * W) = z.deadLeft W objs r := by
  have hle := Nat.mul_le_mul_right W hr
  have hadd : deadWords objs (z.first * W) (r * W) + _ = _ := deadWords_add hle
  rw [deadLeft, packed, hkeep]
  omega

/-! ## Full regions -/

/-- A leading full region lies in front of the chosen region, or is itself chosen, and then the data
ends with it. -/
lemma RegionTable.Heeds.full_lt_or {t : RegionTable} {s : Space} {limiter : Limiter}
    {choice : PrefixChoice} (hheeds : t.Heeds objs z s limiter choice) (h : t.Planned objs z)
    (hz : z.Ordered t.geometry.regionWords t.covered.words) (hkeep : z.keep = z.first)
    (hbounds : z.Bounds t.geometry.regionWords objs) (hr : z.first ≤ r) (hlast : r < z.last)
    (hfull : t.FullUpTo z.first (r + 1)) :
    r < choice.region
      ∨ choice.region = r ∧ z.newTop t.geometry.regionWords objs
        = (r + 1) * t.geometry.regionWords := by
  have hW := t.geometry.regionWords_pos
  have hfullRegion := hheeds.full_le
  by_cases hfront : r < choice.region
  · exact Or.inl hfront
  -- The data fills the regions up to this one, and the search has not found a better end.
  have hstays : z.packed t.geometry.regionWords objs ((r + 1) * t.geometry.regionWords)
      = (r + 1) * t.geometry.regionWords :=
    (Zone.packed_eq_iff (by omega)).2 ((h.fullUpTo_iff (by omega)).1 (hkeep ▸ hfull))
  have hlow : (r + 1) * t.geometry.regionWords ≤ z.newTop t.geometry.regionWords objs := by
    rw [Zone.newTop, ← hstays]
    rcases le_total ((r + 1) * t.geometry.regionWords) z.top with hle | hle
    · exact z.packed_mono _ _ hle
    · exact (z.packed_top hbounds hz hle (Nat.mul_le_mul_right _ hlast)).le
  have hr' : r < upTo t.geometry.regionWords (z.newTop t.geometry.regionWords objs) :=
    (lt_upTo_iff hW).2 ((Nat.mul_lt_mul_of_pos_right (Nat.lt_succ_self r) hW).trans_le hlow)
  have hend : upTo t.geometry.regionWords (z.newTop t.geometry.regionWords objs)
      ≤ choice.fullRegion + 1 := by
    by_contra hmore
    exact hheeds.not_full (not_le.1 hmore) (hfull.mono (by omega))
  exact Or.inr ⟨by omega, le_antisymm ((upTo_le_iff hW).1 (by omega)) hlow⟩

/-! ## Any space -/

namespace Heap

variable {μ : Type} {h : Heap μ} {s : Space} {i : ℕ}

/-- The heap `h'` is `h` with space `i`, which was `s` and is now `s'`, planned into itself for the
objects. -/
structure PlannedInto (h h' : Heap μ) (i : ℕ) (s s' : Space) (objs : List Span)
    (z : Zone) : Prop where
  covered : h'.table.covered = h.table.covered
  geometry : h'.table.geometry = h.table.geometry
  consistent : h'.Consistent objs
  bounds : z.Bounds h.table.geometry.regionWords objs
  planned : h'.table.Planned objs z
  space : h'.spaces[i]? = some s'
  liesOver : s'.Over h.table.covered h.table.geometry.regionWords z
  newTop : s'.newTop = h.table.covered.addr (z.newTop h.table.geometry.regionWords objs)
  capacityWords : s'.capacityWords = s.capacityWords
  usedWords : s'.usedWords = s.usedWords
  deadRatio : s'.deadRatio = s.deadRatio

section

variable (hc : h.Consistent others) (hspace : h.spaces[i]? = some s)
  (hs : s.Over h.table.covered h.table.geometry.regionWords z)
  (hz : z.Ordered h.table.geometry.regionWords h.table.covered.words) (hkeep : z.keep = z.first)
  (hothers : ∀ o ∈ others, z.Misses h.table.geometry.regionWords o)
  (hblank : ∀ r, z.first ≤ r → r < z.last → h.table.regions.get r = {})
  (hos : Separate os) (hholds : ∀ o ∈ os, z.Holds h.table.geometry.regionWords o)
include hothers

/-- Other objects have no words in the space. -/
lemma live_added_iff {w : ℕ} (h1 : z.first * h.table.geometry.regionWords ≤ w)
    (h2 : w < z.last * h.table.geometry.regionWords) :
    Live (os.reverse ++ others) w ↔ Live os w := by
  constructor
  · rintro ⟨o, ho, hcov1, hcov2⟩
    rcases List.mem_append.1 ho with hin | hin
    · exact ⟨o, List.mem_reverse.1 hin, hcov1, hcov2⟩
    · rcases hothers o hin with hout | hout <;> omega
  · rintro ⟨o, ho, hcov⟩
    exact ⟨o, List.mem_append_left _ (List.mem_reverse.2 ho), hcov⟩

include hholds hc hz hos hkeep

/-- The words of the objects are what the space holds once they are packed. -/
lemma newTop_added : z.newTop h.table.geometry.regionWords (os.reverse ++ others)
    = z.first * h.table.geometry.regionWords + (os.map Span.words).sum := by
  have hall : z.held h.table.geometry.regionWords os.reverse = os.reverse :=
    List.filter_eq_self.2 fun o ho => decide_eq_true (hholds o (List.mem_reverse.1 ho))
  rw [Zone.newTop_eq_add_sum (separate_added hc hz hothers hos hholds) hz hkeep
    (bounds_added hothers hholds), Zone.held_append, hall,
    Zone.held_of_misses hz hc.marks.separate hothers, List.append_nil, List.map_reverse,
    List.sum_reverse]

variable [ObjectModel μ]
include hspace hs hblank

/-- Objects are added to a space without any, which is then planned into itself. -/
lemma addObjects_planFromBottom_runs : Runs (do
      os.forM fun o => do let _ ← addObject (h.table.covered.addr o.start) o.words
      planFromBottom i) h fun _ h' => ∃ s', h.PlannedInto h' i s s' (os.reverse ++ others) z := by
  have hlt := (List.getElem?_eq_some_iff.1 hspace).1
  have hbounds := bounds_added hothers hholds
  refine (addObjects_blank_runs hc hz hothers hblank hos hholds).bind fun _ h₁ hadd => ?_
  obtain ⟨hadded, haccounted⟩ := hadd
  have hcovered := hadded.shape.covered
  have hgeometry := hadded.shape.geometry
  have hplan := planFromBottom_runs (h := h₁) (i := i) (s := s) (z := z) hadded.consistent
    (by rw [hadded.spaces]; exact hspace) (by rw [hcovered, hgeometry]; exact hs)
      (by rw [hcovered, hgeometry]; exact hz)
    (by rw [hgeometry]; exact hbounds) hkeep haccounted
  refine hplan.mono fun _ h' hplanned => ?_
  obtain ⟨starts, hspaces, hstarts, -⟩ := hplanned.spaces
  rw [hcovered, hgeometry, hadded.spaces] at hspaces
  exact ⟨{ s with
      newTop := h.table.covered.addr (z.newTop h.table.geometry.regionWords (os.reverse ++ others))
      densePrefix := h.table.covered.addr (z.keep * h.table.geometry.regionWords)
      starts },
    { covered := hplanned.shape.covered.trans hcovered
      geometry := hplanned.shape.geometry.trans hgeometry
      consistent := hplanned.consistent
      bounds := hbounds
      planned := hplanned.planned
      space := by
        rw [hspaces]
        exact List.getElem?_set_self hlt
      liesOver := ⟨hs.bottom, hs.limit, hs.top, (hs.withStarts hstarts).starts⟩
      newTop := rfl
      capacityWords := rfl
      usedWords := rfl
      deadRatio := rfl }⟩

/-- Then a dense prefix is chosen for it. -/
lemma addObjects_computeDensePrefix_runs (hne : os ≠ []) (limiter : Limiter) : Runs (do
      os.forM fun o => do let _ ← addObject (h.table.covered.addr o.start) o.words
      planFromBottom i
      computeDensePrefix i limiter false) h fun boundary h' =>
    ∃ choice s', h.PlannedInto h' i s s' (os.reverse ++ others) z
      ∧ h'.table.Heeds (os.reverse ++ others) z s' limiter choice
      ∧ boundary = h.table.covered.addr (choice.region * h.table.geometry.regionWords)
      ∧ z.first ≤ choice.region ∧ choice.region * h.table.geometry.regionWords < z.top := by
  rw [← bind_assoc]
  refine (addObjects_planFromBottom_runs hc hspace hs hz hkeep hothers hblank hos hholds).bind
    fun _ h₁ hplanned => ?_
  obtain ⟨s', hplanned⟩ := hplanned
  have hsum := newTop_added hc hz hkeep hothers hos hholds
  have hle := hz.newTop_le (os.reverse ++ others)
  have hpos : 0 < (os.map Span.words).sum := by
    obtain ⟨o, rest, rfl⟩ := List.exists_cons_of_ne_nil hne
    have hpos := hos.words_pos o List.mem_cons_self
    rw [List.map_cons, List.sum_cons]
    omega
  have hlive : s'.newTop ≠ s'.bottom := by
    rw [hplanned.newTop, hplanned.liesOver.bottom, Ne, Extent.addr_inj]
    omega
  have hs₁ : s'.Over h₁.table.covered h₁.table.geometry.regionWords z := by
    rw [hplanned.covered, hplanned.geometry]
    exact hplanned.liesOver
  have hz₁ : z.Ordered h₁.table.geometry.regionWords h₁.table.covered.words := by
    rw [hplanned.covered, hplanned.geometry]
    exact hz
  have hnewTop₁ : s'.newTop
      = h₁.table.covered.addr (z.newTop h₁.table.geometry.regionWords (os.reverse ++ others)) := by
    rw [hplanned.covered, hplanned.geometry]
    exact hplanned.newTop
  refine (computeDensePrefix_runs hplanned.consistent hplanned.space hs₁ hz₁ hkeep hplanned.planned
    hnewTop₁ limiter
    false).mono fun boundary h' => ?_
  rintro ⟨k, log, rfl, hboundary, hfirst, htop, hchoice⟩
  rw [if_neg (by simpa using hlive)] at hchoice
  obtain ⟨choice, heq, rfl⟩ := hchoice
  rw [hplanned.covered, hplanned.geometry] at hboundary
  rw [hplanned.geometry] at htop
  refine ⟨choice, s', { hplanned with consistent := hplanned.consistent.withLog log },
    hplanned.planned.heeds hplanned.consistent.laid hz₁ hkeep hs₁ hnewTop₁ hlive heq,
    hboundary, hfirst, ?_⟩
  rcases hfirst.eq_or_lt with heq | hlt
  · rw [← heq]
    omega
  · exact htop hlt

/-- The leading full regions of the space lie in its dense prefix; only the last region that holds
data once all is packed may be left out. -/
theorem fullRegions_in_densePrefix (hne : os ≠ []) (limiter : Limiter) : Runs (do
      os.forM fun o => do let _ ← addObject (h.table.covered.addr o.start) o.words
      planFromBottom i
      computeDensePrefix i limiter false) h fun boundary h' =>
    ∀ r, z.first ≤ r → r < z.last → h'.table.FullUpTo z.first (r + 1) →
      h.table.covered.addr ((r + 1) * h.table.geometry.regionWords) ≤ boundary
      ∨ boundary = h.table.covered.addr (r * h.table.geometry.regionWords)
        ∧ ∃ s', h'.spaces[i]? = some s'
          ∧ s'.newTop = h.table.covered.addr ((r + 1) * h.table.geometry.regionWords) := by
  have hchosen :=
    addObjects_computeDensePrefix_runs hc hspace hs hz hkeep hothers hblank hos hholds hne limiter
  refine hchosen.mono fun boundary h' => ?_
  rintro ⟨choice, s', hplanned, hheeds, rfl, -, -⟩ r hr hlast hfull
  have hbelow :=
    hheeds.full_lt_or hplanned.planned (by rw [hplanned.covered, hplanned.geometry]; exact hz) hkeep
    (by rw [hplanned.geometry]; exact hplanned.bounds) hr hlast hfull
  rw [hplanned.geometry] at hbelow
  rcases hbelow with hlt | ⟨rfl, hend⟩
  · exact Or.inl (Extent.addr_le_addr.2 (Nat.mul_le_mul_right _ hlt))
  · exact Or.inr ⟨rfl, s', hplanned.space, by rw [hplanned.newTop, hend]⟩

/-- The dense prefix of a space with live data that is planned into itself ends at the start of a
region below the top.  It keeps no more dead words than the limiter allows, and no more than there
are in the whole space. -/
theorem densePrefix_within_budget (hne : os ≠ []) (limiter : Limiter) : Runs (do
      os.forM fun o => do let _ ← addObject (h.table.covered.addr o.start) o.words
      planFromBottom i
      computeDensePrefix i limiter false) h fun boundary _ =>
    ∃ k, boundary = h.table.covered.addr (k * h.table.geometry.regionWords) ∧ s.bottom ≤ boundary
      ∧ boundary < s.top
      ∧ deadWords os (z.first * h.table.geometry.regionWords) (k * h.table.geometry.regionWords)
        ≤ min (truncate (wordToFloat s.capacityWords * limiter.limit
            (wordToFloat (os.map Span.words).sum / wordToFloat s.capacityWords) s.deadRatio))
          (s.usedWords - (os.map Span.words).sum) := by
  have hchosen :=
    addObjects_computeDensePrefix_runs hc hspace hs hz hkeep hothers hblank hos hholds hne limiter
  refine hchosen.mono fun boundary h' => ?_
  rintro ⟨choice, s', hplanned, hheeds, rfl, hfirst, htop⟩
  have hlow := Nat.mul_le_mul_right h.table.geometry.regionWords hfirst
  have hlast := hz.top_le_last
  refine ⟨choice.region, rfl, hs.bottom ▸ Extent.addr_le_addr.2 hlow,
    hs.top ▸ Extent.addr_lt_addr.2 htop, ?_⟩
  have hsame : ∀ w, z.first * h.table.geometry.regionWords ≤ w →
      w < choice.region * h.table.geometry.regionWords →
      (Live os w ↔ Live (os.reverse ++ others) w) :=
        fun w h1 h2 => (live_added_iff hothers h1 (by omega)).symm
  have hbudget := hheeds.budget_eq
  rw [hplanned.geometry, hplanned.capacityWords, hplanned.usedWords, hplanned.deadRatio,
    newTop_added hc hz hkeep hothers hos hholds, Nat.add_sub_cancel_left] at hbudget
  rw [deadWords_congr hsame, Zone.deadWords_eq hkeep hfirst]
  have hdead := hheeds.dead_le
  rw [hplanned.geometry, hbudget] at hdead
  exact hdead

end

/-- Two objects of five words in fourteen, of which nine are dead. -/
theorem densePrefix_within_budget_fourRegions :
    ([⟨1, 3⟩, ⟨10, 2⟩] : List Span) ≠ [] ∧ Separate [⟨1, 3⟩, ⟨10, 2⟩] ∧ Runs (do
        [(⟨1, 3⟩ : Span), ⟨10, 2⟩].forM fun o =>
          do let _ ← addObject (fourRegions.table.covered.addr o.start) o.words
        planFromBottom 0
        computeDensePrefix 0 (.ofPercent 50 80) false) fourRegions fun boundary _ =>
      ∃ k, boundary = 64 + 8 * (k * 4) ∧ 64 ≤ boundary ∧ boundary < 176
        ∧ deadWords [⟨1, 3⟩, ⟨10, 2⟩] 0 (k * 4)
          ≤ min (truncate (wordToFloat 16 * (Limiter.ofPercent 50 80).limit
            (wordToFloat 5 / wordToFloat 16) 5)) 9 := by
  have hsep : Separate [⟨1, 3⟩, ⟨10, 2⟩] := ⟨by decide, by simp [Span.Apart, Span.past]⟩
  have hc : fourRegions.Consistent [] :=
    ⟨RegionTable.laid_empty (by decide) (by decide) (by decide) (by decide),
      MarkBitmap.marks_unmarked (by decide), rfl, rfl, rfl⟩
  have hspace : fourRegions.spaces[0]? = some { Space.ofConfig (.old "old" 64 192) with
      top := 176 } := rfl
  have hchosen := densePrefix_within_budget (z := ⟨0, 0, 4, 14⟩) hc hspace
    ⟨rfl, rfl, rfl, rfl, by decide, by decide⟩
    ⟨by decide, by decide, by decide, by decide, by decide⟩ rfl (by simp)
      (fun r _ _ => Table.get_fresh ..) hsep
    (by simp [Zone.Holds, Span.past, fourRegions]) (by decide) (.ofPercent 50 80)
  refine ⟨by decide, hsep, hchosen.mono fun boundary h' => ?_⟩
  rintro ⟨k, hboundary, hlow, hlt, hdead⟩
  exact ⟨k, hboundary, hlow, hlt, hdead⟩

end Heap

end MarkCompact
