import MarkCompact.Proofs.Schedules

/-!
# Objects that were split

An object that is split over destination regions cannot be updated while these are filled in any
order.  It is noted at the region that receives its first words.  Once all regions are completed the
noted objects are updated, region by region, and then every object has been updated.

Main statements: `updateDeferred_leads` (which objects are updated at the end) and
`Upkeep.Finishes.reached_all` (none is left out).
-/

namespace MarkCompact

variable {p : Plan} {done passed : ℕ → Prop} {late : List Span} {o o' : Span} {z : Zone}
  {count i r w : ℕ}

/-! ## When everything has arrived -/

namespace Plan

/-- The regions of the dense prefixes are completed, and so are those that receive data. -/
structure Complete (p : Plan) (done : ℕ → Prop) : Prop where
  prefixes : ∀ z ∈ p.zones, ∀ r, z.first ≤ r → r < z.keep → done r
  destinations : ∀ r, p.Receives r → done r

/-- A live word behind the dense prefix goes to a region that receives data. -/
lemma Valid.receives_forward (hp : p.Valid) (hz : z ∈ p.zones) (hw : Live p.objs w)
    (hkeep : z.keep * p.regionWords ≤ w) (htop : w < z.top) :
    z.Receives p.regionWords p.objs (p.forward w / p.regionWords) := by
  have hord := hp.ordered z hz
  have hfirst := Nat.mul_le_mul_right p.regionWords hord.first_le_keep
  have hlt := Zone.forward_lt_newTop htop hw hkeep
  have hforward := hp.forward_eq hz (hord.has_of_le (by omega) htop)
  have hlow : z.keep * p.regionWords ≤ p.forward w := by
    rw [hforward, Zone.forward, if_neg (by omega)]
    exact z.le_packed _ _ _
  exact ⟨(Nat.le_div_iff_mul_le p.regionWords_pos).2 hlow,
    lt_of_le_of_lt (Nat.div_mul_le_self _ _) (hforward ▸ hlt)⟩

/-- Every live word goes to a completed region. -/
lemma Complete.done_forward (hcomplete : p.Complete done) (hp : p.Valid) (hw : Live p.objs w) :
    done (p.forward w / p.regionWords) := by
  obtain ⟨z, hz, hhas, htop⟩ := hp.exists_zone hw
  by_cases hkeep : z.keep * p.regionWords ≤ w
  · exact hcomplete.destinations _ ⟨z, hz, hp.receives_forward hz hw hkeep htop⟩
  · rw [hp.forward_of_lt_keep hz hhas.1 (not_le.1 hkeep)]
    exact hcomplete.prefixes z hz _ ((Nat.le_div_iff_mul_le p.regionWords_pos).2 hhas.1)
      ((Nat.div_lt_iff_lt_mul p.regionWords_pos).2 (not_le.1 hkeep))

/-- The first words of a split object go to a region that receives data. -/
lemma Split.receives (hsplit : p.Split o) (hp : p.Valid) (ho : o ∈ p.objs) :
    p.Receives (p.forward o.start / p.regionWords) := by
  obtain ⟨⟨z, hz, hholds, hkeep⟩, _⟩ := hsplit
  have hpos := hp.separate.words_pos o ho
  have htop := hholds.2
  rw [Span.past] at htop
  exact ⟨z, hz, hp.receives_forward hz (live_of_mem ho (Span.covers_start hpos)) hkeep (by omega)⟩

/-- At most one object is split at the end of a region. -/
lemma Valid.eq_of_split (hp : p.Valid) (ho : o ∈ p.objs) (ho' : o' ∈ p.objs) (hsplit : p.Split o)
    (hsplit' : p.Split o')
    (hregion : p.forward o.start / p.regionWords = p.forward o'.start / p.regionWords) :
    o = o' := by
  have hover := hsplit.2
  have hover' := hsplit'.2
  obtain ⟨h1, h2⟩ := div_mul_bounds p.regionWords_pos (p.forward o.start)
  obtain ⟨h1', h2'⟩ := div_mul_bounds p.regionWords_pos (p.forward o'.start)
  rw [← hregion] at hover' h1' h2'
  exact hp.eq_of_place (y := p.forward o.start / p.regionWords * p.regionWords + p.regionWords - 1)
    ho ho' (by omega)
    (by omega) (by omega) (by omega)

end Plan

/-! ## Updating what was noted -/

namespace Upkeep

variable {μ : Type} [ObjectModel μ] {K : Upkeep μ p} {h : Heap μ}

/-- Everything has arrived; of the objects that were split, those noted at the regions that satisfy
`passed` have been updated, and `late` lists them. -/
structure Finishes (K : Upkeep μ p) (done passed : ℕ → Prop) (late : List Span)
    (h : Heap μ) : Prop where
  reached : ∃ g, K.Reaches (p.Settled done)
    (fun o => o ∈ p.objs ∧ (¬p.Split o ∨ passed (p.forward o.start / p.regionWords)))
    (fun y => done (y / p.regionWords)) g h
  counted : p.Counted h.table done fun q _ => done q
  keeps : Keeps p done h.table
  nodup : late.Nodup
  mem_late : ∀ o, o ∈ late ↔ o ∈ p.objs ∧ p.Split o ∧ passed (p.forward o.start / p.regionWords)

lemma Finishes.serves (hf : K.Finishes done passed late h) : p.Serves h := by
  obtain ⟨g, hg⟩ := hf.reached
  exact K.serves hg.holds

/-- At first no split object has been updated, and every other one has. -/
lemma Rests.finishes (hrests : K.Rests done h) (hp : p.Valid) (hcomplete : p.Complete done) :
    K.Finishes done (fun _ => False) [] h := by
  obtain ⟨g, hg⟩ := hrests.reached
  refine ⟨⟨g, { hg with updated_iff := fun o => ?_ }⟩, hrests.counted, hrests.keeps, List.nodup_nil,
    fun o => ?_⟩
  · rw [hg.updated_iff, or_false]
    refine and_congr_right fun ho => and_iff_right ?_
    exact hcomplete.done_forward hp
      (live_of_mem ho (Span.covers_start (hp.separate.words_pos o ho)))
  · simp only [List.not_mem_nil, and_false]

/-- Passing regions at which no object is split changes nothing. -/
lemma Finishes.congr {passed' : ℕ → Prop} (hf : K.Finishes done passed late h)
    (hsame : ∀ o ∈ p.objs, p.Split o →
      (passed' (p.forward o.start / p.regionWords) ↔ passed (p.forward o.start / p.regionWords))) :
    K.Finishes done passed' late h := by
  obtain ⟨g, hg⟩ := hf.reached
  refine ⟨⟨g, { hg with updated_iff := fun o => ?_ }⟩, hf.counted, hf.keeps, hf.nodup, fun o => ?_⟩
  · rw [hg.updated_iff]
    refine and_congr_right fun ho => ?_
    by_cases hsplit : p.Split o
    · rw [hsame o ho hsplit]
    · exact iff_of_true (Or.inl hsplit) (Or.inl hsplit)
  · rw [hf.mem_late]
    exact and_congr_right fun ho => and_congr_right fun hsplit => (hsame o ho hsplit).symm

end Upkeep

namespace Heap

open Plan

variable {μ : Type} [ObjectModel μ] {K : Upkeep μ p} {h : Heap μ}

/-- The object that was split at a region is updated. -/
lemma updateSplit_leads (hp : p.Valid) (hcomplete : p.Complete done)
    (hf : K.Finishes done passed late h) (hz : p.zones[i]? = some z) (ho : o ∈ p.objs)
    (hsplit : p.Split o) (h1 : z.keep ≤ p.forward o.start / p.regionWords)
    (h2 : p.forward o.start / p.regionWords < z.last)
    (hnot : ¬passed (p.forward o.start / p.regionWords)) :
    Leads K.may (updateInPlace i (p.covered.addr (p.forward o.start))) h fun _ h' =>
      K.Finishes done (fun x => passed x ∨ x = p.forward o.start / p.regionWords)
        (o :: late) h' := by
  obtain ⟨g, hg⟩ := hf.reached
  have hord := hp.ordered z (List.mem_of_getElem? hz)
  have hhas : z.Has p.regionWords (p.forward o.start) :=
    ⟨(Nat.le_div_iff_mul_le p.regionWords_pos).1 (le_trans hord.first_le_keep h1),
      (Nat.div_lt_iff_lt_mul p.regionWords_pos).1 h2⟩
  have harrived : ∀ k, k < o.words →
      p.location (p.Settled done) (o.start + k) = p.forward o.start + k := fun k hk => by
    rw [location_of_filled, hp.forward_add ho hk]
    exact Or.inr (hcomplete.done_forward hp (live_of_mem ho (Span.covers_add hk)))
  refine (updateInPlace_leads hg hz hhas ho (fun hup => hup.2.elim (· hsplit) hnot) harrived).mono
    fun _ h' => ?_
  rintro ⟨⟨g', hg'⟩, hrefilled⟩
  -- Whatever is split at this region is `o`.
  have honly : ∀ o' ∈ p.objs, p.Split o' →
      (p.forward o'.start / p.regionWords = p.forward o.start / p.regionWords ↔ o' = o) :=
    fun o' ho' hsplit' => ⟨hp.eq_of_split ho' ho hsplit' hsplit, fun heq => by rw [heq]⟩
  refine ⟨⟨g', { hg' with updated_iff := fun o' => ?_ }⟩, hf.counted.refilled hrefilled, ?_, ?_,
    fun o' => ?_⟩
  · rw [hg'.updated_iff]
    by_cases ho' : o' ∈ p.objs
    · by_cases hsplit' : p.Split o'
      · simp only [ho', hsplit', honly o' ho' hsplit', true_and, not_true_eq_false, false_or]
      · simp only [ho', hsplit', true_and, not_false_eq_true, true_or]
    · have : o' ≠ o := fun heq => ho' (heq ▸ ho)
      simp only [ho', this, false_and, or_false]
  · exact hf.keeps.of_deferred fun x => by rw [hrefilled.regions x]
  · refine List.nodup_cons.2 ⟨fun hin => hnot ((hf.mem_late o).1 hin).2.2, hf.nodup⟩
  · rw [List.mem_cons, hf.mem_late]
    constructor
    · rintro (rfl | ⟨ho', hsplit', hpassed⟩)
      · exact ⟨ho, hsplit, Or.inr rfl⟩
      · exact ⟨ho', hsplit', Or.inl hpassed⟩
    · rintro ⟨ho', hsplit', hpassed | heq⟩
      · exact Or.inr ⟨ho', hsplit', hpassed⟩
      · exact Or.inl ((honly o' ho' hsplit').1 heq)

/-- The objects that were split at regions of one space are updated. -/
lemma updateDeferredIn_leads (hp : p.Valid) (hstart : 0 < p.covered.start)
    (hcomplete : p.Complete done) (hf : K.Finishes done passed late h) (hz : p.zones[i]? = some z)
    (hr : z.keep ≤ r) (hreceives : ∀ x, r ≤ x → x < r + count → z.Receives p.regionWords p.objs x)
    (hnot : ∀ x, r ≤ x → x < r + count → ¬passed x) :
    Leads K.may (updateDeferredIn i count r late.length) h fun out h' => ∃ late',
      K.Finishes done (fun x => passed x ∨ (r ≤ x ∧ x < r + count)) late' h'
        ∧ out = late'.length := by
  induction count generalizing h r late passed with
  | zero =>
    rw [updateDeferredIn, leads_pure]
    exact ⟨late, hf.congr fun o _ _ => or_iff_left (by omega), rfl⟩
  | succ n ih =>
    have hzone := List.mem_of_getElem? hz
    have hlt := (hreceives r (le_refl r) (by omega)).lt_last (hp.ordered z hzone)
    have hregion : h.table.region r = .ok (h.table.regions.get r) :=
      RegionTable.Laid.region_eq (hf.serves.loaded.region_lt hp hzone hlt)
    have hdone : done r := hcomplete.destinations r ⟨z, hzone, hreceives r (le_refl r) (by omega)⟩
    have hdeferred := hf.keeps.deferred z hzone r hr hlt hdone
    simp only [updateDeferredIn, leads_bind, leads_get, hregion, leads_check_ok]
    generalize (h.table.regions.get r).deferred = noted at hdeferred
    have hrest : ∀ {h' : Heap μ} {late' : List Span},
        K.Finishes done (fun x => passed x ∨ x = r) late' h' →
        Leads K.may (updateDeferredIn i n (r + 1) late'.length) h' fun out h'' => ∃ late'',
          K.Finishes done (fun x => passed x ∨ (r ≤ x ∧ x < r + (n + 1))) late'' h''
            ∧ out = late''.length := fun hf' => by
      refine (ih hf' (by omega) (fun x g1 g2 => hreceives x (by omega) (by omega))
        fun x g1 g2 hx => ?_).mono fun out h'' => ?_
      · exact hx.elim (hnot x (by omega) (by omega)) (by omega)
      · rintro ⟨late'', hf'', rfl⟩
        refine ⟨late'', hf''.congr fun o _ _ => ?_, rfl⟩
        rw [or_assoc]
        exact or_congr_right (by omega)
    cases hdeferred with
    | none whole =>
      rw [if_pos rfl]
      exact hrest (hf.congr fun o ho hsplit => or_iff_left (whole o ho hsplit))
    | @some o mem split region =>
      have hne : p.covered.addr (p.forward o.start) ≠ 0 := by
        have : p.covered.start ≤ p.covered.addr (p.forward o.start) := Nat.le_add_right _ _
        omega
      rw [if_neg hne, leads_bind]
      have hpassed : ¬passed (p.forward o.start / p.regionWords) := by
        rw [region]
        exact hnot r (le_refl r) (by omega)
      refine (updateSplit_leads hp hcomplete hf hz mem split (by omega) (by omega) hpassed).mono
        fun _ h' hf' => ?_
      rw [region] at hf'
      exact hrest hf'

/-- The objects that were split in some spaces are updated. -/
lemma updateDeferredSpaces_leads (hp : p.Valid) (hstart : 0 < p.covered.start)
    (hcomplete : p.Complete done) {spaces : List Space} {zones : List Zone}
    (hmatches : List.Forall₂ (fun s z => s.Matches p.covered p.regionWords p.objs z) spaces zones)
    (hzones : ∀ j z, zones[j]? = some z → p.zones[i + j]? = some z)
    (hf : K.Finishes done passed late h) (hapart : zones.Pairwise Zone.Apart)
    (hnot : ∀ z ∈ zones, ∀ x, z.Receives p.regionWords p.objs x → ¬passed x) :
    Leads K.may (updateDeferred spaces i late.length) h fun out h' => ∃ late',
      K.Finishes done (fun x => passed x ∨ ∃ z ∈ zones, z.Receives p.regionWords p.objs x) late' h'
        ∧ out = late'.length := by
  induction hmatches generalizing h late passed i with
  | nil =>
    rw [updateDeferred, leads_pure]
    exact ⟨late, hf.congr fun o _ _ => by simp, rfl⟩
  | @cons s z spaces zones hs _ ih =>
    have hz : p.zones[i]? = some z := hzones 0 z rfl
    have hzone := List.mem_of_getElem? hz
    have hord := hp.ordered z hzone
    obtain ⟨count, hbeg, hstop, _, hrange⟩ := hf.serves.exists_destinations hp hzone hs
    simp only [updateDeferred, leads_bind, leads_get, hbeg, hstop, leads_check_ok,
      Nat.add_sub_cancel_left]
    refine (updateDeferredIn_leads hp hstart hcomplete hf hz (le_refl _)
      (fun x h1 h2 => (hrange x).1 ⟨h1, h2⟩)
      fun x h1 h2 => hnot z List.mem_cons_self x ((hrange x).1 ⟨h1, h2⟩)).mono fun out h' => ?_
    rintro ⟨late', hf', rfl⟩
    have hother : ∀ z' ∈ zones, ∀ x, z.Receives p.regionWords p.objs x →
        ¬z'.Receives p.regionWords p.objs x :=
      fun z' hz' x hx hx' => by
      obtain ⟨j, hj⟩ := List.mem_iff_getElem?.1 hz'
      have hord' := hp.ordered z' (List.mem_of_getElem? (hzones (j + 1) z' hj))
      have hlt := hx.lt_last hord
      have hlt' := hx'.lt_last hord'
      have hle := le_trans hord.first_le_keep hx.1
      have hle' := le_trans hord'.first_le_keep hx'.1
      rcases List.rel_of_pairwise_cons hapart hz' with hbefore | hbehind <;> omega
    have hf₁ : K.Finishes done (fun x => passed x ∨ z.Receives p.regionWords p.objs x) late' h' :=
      hf'.congr fun _ _ _ => or_congr_right (hrange _).symm
    refine (ih (fun j z' hz' => ?_) hf₁ hapart.of_cons fun z' hz' x hx => ?_).mono
      fun out h'' => ?_
    · rw [show i + 1 + j = i + (j + 1) by omega]
      exact hzones (j + 1) z' hz'
    · rintro (hpassed | hx')
      · exact hnot z' (List.mem_cons_of_mem _ hz') x hx hpassed
      · exact hother z' hz' x hx' hx
    · rintro ⟨late'', hf'', rfl⟩
      refine ⟨late'', hf''.congr fun o _ _ => ?_, rfl⟩
      rw [or_assoc, List.exists_mem_cons_iff]

/-- The objects that were split are updated. -/
theorem updateDeferred_leads (hp : p.Valid) (hstart : 0 < p.covered.start)
    (hcomplete : p.Complete done) (hrests : K.Rests done h) :
    Leads K.may (updateDeferred h.spaces 0 0) h fun out h' =>
      ∃ late, K.Finishes done p.Receives late h' ∧ out = late.length := by
  have hlead := updateDeferredSpaces_leads (i := 0) hp hstart hcomplete hrests.serves.spaces
    (fun j z hz => by rwa [Nat.zero_add])
    (hrests.finishes hp hcomplete) hp.apart fun _ _ _ _ => id
  refine hlead.mono fun out h' => ?_
  rintro ⟨late, hf, rfl⟩
  exact ⟨late, hf.congr fun o _ _ => (iff_of_eq (false_or _)).symm, rfl⟩

end Heap

/-- Then every object has been updated. -/
theorem Upkeep.Finishes.reached_all {μ : Type} [ObjectModel μ] {K : Upkeep μ p} {h : Heap μ}
    (hf : K.Finishes done p.Receives late h) (hp : p.Valid) :
    ∃ g, K.Reaches (p.Settled done) (fun o => o ∈ p.objs)
      (fun y => done (y / p.regionWords)) g h := by
  obtain ⟨g, hg⟩ := hf.reached
  refine ⟨g, { hg with updated_iff := fun o => ?_ }⟩
  rw [hg.updated_iff]
  refine and_iff_left_of_imp fun ho => ?_
  by_cases hsplit : p.Split o
  · exact Or.inr (hsplit.receives hp ho)
  · exact Or.inl hsplit

end MarkCompact
