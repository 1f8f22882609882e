import MarkCompact.Proofs.Choosing
import MarkCompact.Proofs.Locality

/-!
# What planning decides

Which dense prefix is chosen for a space, and which filler closes it, depends on the live objects of
the space and on nothing that earlier cycles have left in the tables.  `Zone.chosen` is where the
prefix ends and `Zone.fillers` is the filler, if there is one.

Main statements: `Zone.chosen_eq` (any table that plans the space into itself leads to the same
choice), `Zone.EndFilled.eq_append` (there is only one filler to add) and `Zone.newTop_eq_add_sum`
(where packed objects end).
-/

namespace MarkCompact

variable {objs os : List Span} {o o' : Span} {W a b k minimum w : ℕ} {z : Zone}

/-! ## Tables that plan a space alike -/

namespace RegionTable

/-- The tables plan the regions from `lo` up to `hi`, itself included, for the same amounts of data
and destinations. -/
structure Alike (t t' : RegionTable) (lo hi : ℕ) : Prop where
  covered : t'.covered = t.covered
  geometry : t'.geometry = t.geometry
  destination : ∀ r, lo ≤ r → r ≤ hi →
    (t'.regions.get r).destination = (t.regions.get r).destination
  dataWords : ∀ r, lo ≤ r → r ≤ hi → (t'.regions.get r).dataWords = (t.regions.get r).dataWords

variable {t t' : RegionTable} {beg budget count hi left lo r right stop tries : ℕ}

lemma Alike.movesLeft (h : t.Alike t' lo hi) (ht : t.MovesLeft lo hi) :
    t'.MovesLeft lo hi := fun r h1 h2 => by
  rw [h.geometry, h.covered, h.destination r h1 h2]
  exact ht r h1 h2

lemma searchDeadSpace_congr (h : t.Alike t' lo hi) (ht : t.MovesLeft lo hi) (hlo : lo ≤ left)
    (hhi : right ≤ hi) :
    t'.searchDeadSpace tries left right = t.searchDeadSpace tries left right := by
  induction tries generalizing left right with
  | zero => rfl
  | succ tries ih =>
    rw [searchDeadSpace, searchDeadSpace]
    split
    · rfl
    case isFalse hmore =>
      extract_lets middle
      have hmiddle : lo ≤ middle ∧ middle ≤ hi := ⟨by omega, by omega⟩
      obtain ⟨hcount, hle⟩ := ht middle hmiddle.1 hmiddle.2
      obtain ⟨hcount', hle'⟩ := h.movesLeft ht middle hmiddle.1 hmiddle.2
      rw [Laid.region_eq hcount, Laid.region_eq hcount', ok_bind, ok_bind,
        Laid.regionStart?_eq hcount.le, Laid.regionStart?_eq hcount'.le, ok_bind, ok_bind,
        if_neg (not_lt.2 hle), if_neg (not_lt.2 hle'),
        h.destination middle hmiddle.1 hmiddle.2, h.dataWords middle hmiddle.1 hmiddle.2,
        h.covered, h.geometry,
        ih hlo (show middle - 1 ≤ hi by omega), ih (show lo ≤ middle + 1 by omega) hhi]

lemma firstDeadSpace_congr (h : t.Alike t' lo hi) (ht : t.MovesLeft lo hi) (hlo : lo ≤ beg)
    (hlt : beg < stop) (hhi : stop ≤ hi + 1) :
    t'.firstDeadSpace beg stop = t.firstDeadSpace beg stop := by
  rw [firstDeadSpace, firstDeadSpace, if_pos hlt, searchDeadSpace_congr h ht hlo (by omega)]

lemma deadToLeft_congr (h : t.Alike t' lo hi) (ht : t.MovesLeft lo hi) (hlo : lo ≤ r)
    (hhi : r ≤ hi) :
    t'.deadToLeft r = t.deadToLeft r := by
  obtain ⟨hcount, hle⟩ := ht r hlo hhi
  obtain ⟨hcount', hle'⟩ := h.movesLeft ht r hlo hhi
  rw [deadToLeft, deadToLeft, Laid.region_eq hcount, Laid.region_eq hcount', ok_bind, ok_bind,
    Laid.regionStart?_eq hcount.le, Laid.regionStart?_eq hcount'.le, ok_bind, ok_bind,
    if_neg (not_lt.2 hle), if_neg (not_lt.2 hle'), h.destination r hlo hhi,
    h.covered, h.geometry]

lemma searchDeadWood_congr (h : t.Alike t' lo hi) (ht : t.MovesLeft lo hi) (hlo : lo ≤ left)
    (hhi : right ≤ hi) :
    t'.searchDeadWood budget tries left right = t.searchDeadWood budget tries left right := by
  induction tries generalizing left right with
  | zero => rfl
  | succ tries ih =>
    rw [searchDeadWood, searchDeadWood]
    split
    · rfl
    case isFalse hmore =>
      extract_lets middle
      rw [deadToLeft_congr h ht (show lo ≤ middle by omega) (show middle ≤ hi by omega),
        ih hlo (show middle - 1 ≤ hi by omega), ih (show lo ≤ middle + 1 by omega) hhi]

lemma deadWoodLimit_congr (h : t.Alike t' lo hi) (ht : t.MovesLeft lo hi) (hlo : lo ≤ beg)
    (hlt : beg < stop) (hhi : stop ≤ hi + 1) :
    t'.deadWoodLimit beg stop budget = t.deadWoodLimit beg stop budget := by
  rw [deadWoodLimit, deadWoodLimit, if_pos hlt, searchDeadWood_congr h ht hlo (by omega)]

lemma reclaimedRatio_congr (h : t.Alike t' lo hi) (ht : t.MovesLeft lo hi) (hlo : lo ≤ r)
    (hhi : r ≤ hi) (bottom top newTop : ℕ) :
    t'.reclaimedRatio r bottom top newTop = t.reclaimedRatio r bottom top newTop := by
  obtain ⟨hcount, _⟩ := ht r hlo hhi
  obtain ⟨hcount', _⟩ := h.movesLeft ht r hlo hhi
  rw [reclaimedRatio, reclaimedRatio, Laid.region_eq hcount, Laid.region_eq hcount',
    ok_bind, ok_bind, Laid.regionStart?_eq hcount.le, Laid.regionStart?_eq hcount'.le,
    h.destination r hlo hhi, h.covered, h.geometry]

lemma bestRegion_congr (h : t.Alike t' lo hi) (ht : t.MovesLeft lo hi) (hlo : lo ≤ r)
    (hhi : r + count ≤ hi + 1) {bottom top newTop best : ℕ} {ratio : Float} :
    t'.bestRegion bottom top newTop count r best ratio
      = t.bestRegion bottom top newTop count r best ratio := by
  induction count generalizing r best ratio with
  | zero => rfl
  | succ count ih =>
    rw [bestRegion, bestRegion, reclaimedRatio_congr h ht hlo (by omega)]
    refine bind_congr fun candidate => ?_
    rw [ih (show lo ≤ r + 1 by omega) (by omega), ih (show lo ≤ r + 1 by omega) (by omega)]

/-- Tables that plan a space into itself for the same live objects of the space plan it alike. -/
lemma Planned.alike (h : t.Planned objs z) (h' : t'.Planned os z)
    (hag : z.Agree t.geometry.regionWords objs os)
    (hz : z.Ordered t.geometry.regionWords t.covered.words) (hcovered : t'.covered = t.covered)
    (hgeometry : t'.geometry = t.geometry) (hhi : hi * t.geometry.regionWords < z.top) :
    t.Alike t' z.keep hi := by
  have hW := t.geometry.regionWords_pos
  have htop := hz.top_le_last
  have hbelow : ∀ r, r ≤ hi → r * t.geometry.regionWords < z.top := fun r hr =>
    lt_of_le_of_lt (Nat.mul_le_mul_right _ hr) hhi
  refine ⟨hcovered, hgeometry, fun r h1 h2 => ?_, fun r h1 h2 => ?_⟩
  · have hr := hbelow r h2
    have heq' := h'.destination r h1 (by rw [hgeometry]; exact (lt_upTo_iff hW).2 hr)
    rw [h.destination r h1 ((lt_upTo_iff hW).2 hr), heq', hgeometry, hcovered,
      hag.packed_eq hz.first_le_keep (Nat.mul_le_mul_right _ h1) (by omega)]
  · have hr : r < z.last :=
      lt_of_mul_lt_mul_right (lt_of_lt_of_le (hbelow r h2) htop) (Nat.zero_le _)
    have heq' := (h'.accounted.accounts r h1 hr).data_eq
    rw [(h.accounted.accounts r h1 hr).data_eq, heq', hgeometry,
      hag.dataOf_eq (hz.first_le_keep.trans h1) hr]

/-- They lead to the same choice. -/
lemma Planned.choosePrefix_congr {s s' : Space} {limiter : Limiter} (h : t.Planned objs z)
    (h' : t'.Planned os z) (hag : z.Agree t.geometry.regionWords objs os) (ht : t.Laid)
    (ht' : t'.Laid) (hz : z.Ordered t.geometry.regionWords t.covered.words)
    (hcovered : t'.covered = t.covered) (hgeometry : t'.geometry = t.geometry)
    (hkeep : z.keep = z.first) (hs : s.Over t.covered t.geometry.regionWords z)
    (hs' : s'.Over t.covered t.geometry.regionWords z)
    (hnewTop : s.newTop = t.covered.addr (z.newTop t.geometry.regionWords objs))
    (hnewTop' : s'.newTop = s.newTop) (hratio : s'.deadRatio = s.deadRatio)
    (hne : s.newTop ≠ s.bottom) :
    t'.choosePrefix s' limiter = t.choosePrefix s limiter := by
  have hW := t.geometry.regionWords_pos
  have hle := hz.newTop_le objs
  have hlow : z.keep * t.geometry.regionWords ≤ z.newTop t.geometry.regionWords objs :=
    z.le_packed _ _ _
  have hlast := hz.last_le
  have htop := hz.top_le_last
  have hlive : z.keep * t.geometry.regionWords < z.newTop t.geometry.regionWords objs := by
    rw [hnewTop, hs.bottom, Ne, Extent.addr_inj, ← hkeep] at hne
    omega
  have hupTo : upTo t.geometry.regionWords (z.newTop t.geometry.regionWords objs)
      ≤ upTo t.geometry.regionWords z.top :=
    upTo_mono hW hle
  have hfirst : z.first < upTo t.geometry.regionWords (z.newTop t.geometry.regionWords objs) :=
    (lt_upTo_iff hW).2 (by rw [← hkeep]; exact hlive)
  have hhi : (upTo t.geometry.regionWords z.top - 1) * t.geometry.regionWords < z.top :=
    (lt_upTo_iff hW).1 (by omega)
  have hmoves := hkeep ▸ h.movesLeft ht hz hhi
  have halike := hkeep ▸ h.alike h' hag hz hcovered hgeometry hhi
  have hbottom := hs'.bottom.trans hs.bottom.symm
  have htops := hs'.top.trans hs.top.symm
  have hlimits := hs'.limit.trans hs.limit.symm
  have hused : s'.usedWords = s.usedWords := by
    rw [Space.usedWords, Space.usedWords, htops, hbottom]
  have hcapacity : s'.capacityWords = s.capacityWords := by
    rw [Space.capacityWords, Space.capacityWords, hlimits, hbottom]
  have hupTo' : ∀ x, x ≤ t.covered.words →
      t'.regionUpTo (t.covered.addr x) = .ok (upTo t.geometry.regionWords x) := fun x hx => by
    rw [← hcovered, ← hgeometry]
    exact ht'.regionUpTo_addr (by rw [hcovered]; exact hx)
  have hregion' : t'.regionOf (t.covered.addr (z.first * t.geometry.regionWords))
      = .ok z.first := by
    have heq :=
      ht'.regionOf_addr (i := z.first * t.geometry.regionWords) (by rw [hcovered, ← hkeep]; omega)
    rw [hcovered, hgeometry, Nat.mul_div_cancel _ hW] at heq
    exact heq
  rw [choosePrefix, choosePrefix, hbottom, htops, hnewTop', hratio, hused, hcapacity, hs.bottom,
    hs.top, hnewTop, ht.regionOf_addr (by rw [← hkeep]; omega), hregion', ok_bind, ok_bind,
    ht.regionUpTo_addr (by omega),
    hupTo' _ (by omega), ok_bind, ok_bind, ht.regionUpTo_addr (by omega), hupTo' _ (by omega),
    ok_bind, ok_bind,
    Nat.mul_div_cancel _ hW, firstDeadSpace_congr halike hmoves le_rfl hfirst (by omega)]
  obtain ⟨full, heq, hfull1, hfull2⟩ := firstDeadSpace_eq
    (fun r h1 h2 => hmoves r h1 (by omega) : t.MovesLeft z.first
      (upTo t.geometry.regionWords (z.newTop t.geometry.regionWords objs) - 1))
    hfirst
  rw [heq, ok_bind, ok_bind]
  refine bind_congr fun live => ?_
  extract_lets density limit
  refine bind_congr fun dead => ?_
  extract_lets budget
  rw [deadWoodLimit_congr halike hmoves hfull1 (by omega) (by omega)]
  obtain ⟨limitRegion, heq, hlimit1, hlimit2⟩ : ∃ r,
      t.deadWoodLimit full (upTo t.geometry.regionWords z.top) budget = .ok r
      ∧ full ≤ r ∧ r < upTo t.geometry.regionWords z.top :=
    deadWoodLimit_eq (fun r h1 h2 => hmoves r (by omega) h2) (by omega)
  rw [heq, ok_bind, ok_bind, bestRegion_congr halike hmoves hfull1 (by omega)]

end RegionTable

/-! ## Where a dense prefix ends -/

namespace Zone

/-- Some table that plans the zone into itself, for objects of which `objs` are those of the zone,
leads to a dense prefix that ends at region `k`. -/
def Leads (z : Zone) (e : Extent) (g : Geometry) (objs : List Span) (deadRatio : ℕ)
    (limiter : Limiter) (k : ℕ) : Prop :=
  ∃ (t : RegionTable) (s : Space) (os : List Span) (choice : PrefixChoice), t.Laid ∧ t.covered = e
    ∧ t.geometry = g
    ∧ t.Planned os z ∧ z.Agree g.regionWords objs os ∧ s.Over e g.regionWords z
    ∧ s.newTop = e.addr (z.newTop g.regionWords os) ∧ s.deadRatio = deadRatio
    ∧ t.choosePrefix s limiter = .ok choice ∧ choice.region = k

open Classical in
/-- Where the dense prefix of a zone ends that has none yet. -/
noncomputable def chosen (z : Zone) (e : Extent) (g : Geometry) (objs : List Span) (deadRatio : ℕ)
    (limiter : Limiter) (maximum : Bool) : ℕ :=
  if z.newTop g.regionWords objs = z.first * g.regionWords ∨ maximum then z.first
  else if h : ∃ k, z.Leads e g objs deadRatio limiter k then h.choose else z.first

variable {e : Extent} {g : Geometry} {deadRatio : ℕ} {limiter : Limiter} {maximum : Bool}

/-- In a maximum compaction there is no dense prefix. -/
lemma chosen_maximum : z.chosen e g objs deadRatio limiter true = z.first :=
  if_pos (Or.inr rfl)

/-- The new top of a zone depends on its own objects. -/
lemma Agree.newTop_eq {words : ℕ} (h : z.Agree W objs os) (hz : z.Ordered W words) :
    z.newTop W objs = z.newTop W os :=
  h.packed_eq hz.first_le_keep hz.keep_le_top hz.top_le_last

/-- The choice depends on the objects of the zone. -/
lemma Agree.chosen_eq {words : ℕ} (h : z.Agree g.regionWords objs os)
    (hz : z.Ordered g.regionWords words) :
    z.chosen e g objs deadRatio limiter maximum = z.chosen e g os deadRatio limiter maximum := by
  have hleads : z.Leads e g objs deadRatio limiter = z.Leads e g os deadRatio limiter := by
    refine funext fun k => propext ⟨?_, ?_⟩
    · rintro ⟨t, s, os', choice, h1, h2, h3, h4, h5, h6⟩
      exact ⟨t, s, os', choice, h1, h2, h3, h4,
        fun o hl hr => (h o hl hr).symm.trans (h5 o hl hr), h6⟩
    · rintro ⟨t, s, os', choice, h1, h2, h3, h4, h5, h6⟩
      exact ⟨t, s, os', choice, h1, h2, h3, h4, fun o hl hr => (h o hl hr).trans (h5 o hl hr), h6⟩
  rw [chosen, chosen, h.newTop_eq hz, hleads]

/-- Any table that plans the zone into itself leads to the same choice. -/
theorem chosen_eq {t : RegionTable} {s : Space} (ht : t.Laid) (hplanned : t.Planned os z)
    (hag : z.Agree t.geometry.regionWords objs os)
    (hz : z.Ordered t.geometry.regionWords t.covered.words) (hkeep : z.keep = z.first)
    (hs : s.Over t.covered t.geometry.regionWords z)
    (hnewTop : s.newTop = t.covered.addr (z.newTop t.geometry.regionWords os))
    (hk : if s.newTop = s.bottom ∨ maximum then k = z.first
      else ∃ choice, t.choosePrefix s limiter = .ok choice ∧ choice.region = k) :
    k = z.chosen t.covered t.geometry objs s.deadRatio limiter maximum := by
  have hiff : s.newTop = s.bottom
      ↔ z.newTop t.geometry.regionWords objs = z.first * t.geometry.regionWords := by
    rw [hnewTop, hs.bottom, Extent.addr_inj, hag.newTop_eq hz]
  rw [chosen]
  by_cases hnone : s.newTop = s.bottom ∨ maximum
  · rw [if_pos hnone] at hk
    rw [if_pos (hnone.imp_left hiff.1), hk]
  · rw [if_neg hnone] at hk
    obtain ⟨choice, heq, rfl⟩ := hk
    have hleads : ∃ k, z.Leads t.covered t.geometry objs s.deadRatio limiter k :=
      ⟨_, t, s, os, choice, ht, rfl, rfl, hplanned, hag, hs, hnewTop, rfl, heq, rfl⟩
    rw [if_neg (mt (Or.imp_left hiff.2) hnone), dif_pos hleads]
    obtain ⟨t', s', os', choice', ht', hcovered, hgeometry, hplanned', hag', hs', hnewTop', hratio,
        heq', hregion⟩ :=
      hleads.choose_spec
    have hboth : z.Agree t.geometry.regionWords os os' :=
      fun o h1 h2 => (hag o h1 h2).symm.trans (hag' o h1 h2)
    have hsame : t'.choosePrefix s' limiter = t.choosePrefix s limiter :=
      hplanned.choosePrefix_congr hplanned' hboth ht ht' hz
      hcovered hgeometry hkeep hs hs' hnewTop (by rw [hnewTop', hnewTop, hboth.newTop_eq hz]) hratio
        fun heq => hnone (Or.inl heq)
    rw [heq', heq] at hsame
    cases hsame
    exact hregion

end Zone

/-! ## Which filler closes it -/

/-- There is one filler for dead space across a boundary. -/
lemma Filler.unique {bottom top : ℕ} (h : Filler objs bottom b top minimum o)
    (h' : Filler objs bottom b top minimum o') (hsep : Separate objs) : o = o' := by
  have hstart : ∀ {o o' : Span}, Filler objs bottom b top minimum o →
      Filler objs bottom b top minimum o' →
      o'.start ≤ o.start := fun {o o'} h h' => by
    by_contra hlt
    -- The later one follows an object, whose last word the earlier one takes for dead.
    rcases h'.follows with heq | ⟨p, hp, hpast⟩
    · have := h.bottom_le
      omega
    · have hpos := hsep.start_lt_past hp
      have h1 := h'.start_lt
      have h2 := h.boundary_le
      exact h.dead (o'.start - 1) (by omega) (by omega) ⟨p, hp, by omega, by omega⟩
  obtain ⟨start, words⟩ := o
  obtain ⟨start', words'⟩ := o'
  obtain rfl : start = start' := le_antisymm (hstart h' h) (hstart h h')
  have h1 := h.boundary_le
  have h2 := h'.boundary_le
  have h3 := h.least
  have h4 := h'.least
  have h5 := h.minimum_le
  have h6 := h'.minimum_le
  simp only [Span.past] at h1 h2 h3 h4 h5 h6
  have hwords : words = words' := by
    by_cases hlt : b < start + words
    · have := h3 hlt
      have := h4 (by omega)
      omega
    · by_cases hlt' : b < start + words'
      · have := h4 hlt'
        omega
      · omega
  rw [hwords]

/-- A filler among the objects is one among those of the zone. -/
lemma Filler.agree (h : Filler objs (z.first * W) (k * W) z.top minimum o) (hag : z.Agree W objs os)
    (hsep : Separate objs) (htop : z.top ≤ z.last * W) :
    Filler os (z.first * W) (k * W) z.top minimum o := by
  have hpast := h.past_le
  refine { h with dead := fun w h1 h2 hw => ?_, follows := ?_ }
  · exact h.dead w h1 h2 ((hag.live_iff (h.bottom_le.trans h1) (by omega)).2 hw)
  · rcases h.follows with heq | ⟨p, hp, hstart⟩
    · exact Or.inl heq
    · have hpos := hsep.start_lt_past hp
      have hlow := h.bottom_le
      have hlt := h.start_lt
      have hle := h.boundary_le
      rcases Nat.eq_or_lt_of_le hlow with heq | hlt'
      · exact Or.inl heq.symm
      · exact Or.inr ⟨p, (hag p (by omega) (by omega)).1 hp, hstart⟩

lemma CrossedByDead.agree (h : CrossedByDead objs (k * W)) (hag : z.Agree W objs os)
    (hfirst : z.first * W < k * W) (hk : k * W < z.top) (htop : z.top ≤ z.last * W) :
    CrossedByDead os (k * W) :=
  ⟨mt (hag.live_iff (by omega) (by omega)).2 h.1, mt (hag.live_iff (by omega) (by omega)).2 h.2⟩

namespace Zone

open Classical in
/-- The filler that closes the dense prefix of the zone, if dead space crosses the end of it. -/
noncomputable def fillers (z : Zone) (W minimum : ℕ) (objs : List Span) : List Span :=
  if h : z.first < z.keep ∧ CrossedByDead objs (z.keep * W) ∧ ∃ o,
    Filler objs (z.first * W) (z.keep * W) z.top minimum o
  then [h.2.2.choose] else []

/-- Without a dense prefix there is no filler. -/
lemma fillers_of_keep_eq (h : z.keep = z.first) : z.fillers W minimum objs = [] :=
  dif_neg fun hfilled => by omega

/-- A dense prefix that ends with an object has got the filler that it needs, and nothing else. -/
theorem EndFilled.eq_append {os' : List Span} {words : ℕ} (h : z.EndFilled W minimum os os')
    (hcrossed : os' ≠ os → CrossedByDead os (z.keep * W)) (hag : z.Agree W objs os)
    (hsep : Separate objs) (hsep' : Separate os) (hz : z.Ordered W words) (hW : 0 < W)
    (htop : z.first < z.keep → z.keep * W < z.top) :
    os' = z.fillers W minimum objs ++ os := by
  rw [fillers]
  cases h with
  | whole hwhole =>
    rw [dif_neg fun hfilled => ?_]
    · rfl
    · exact hwhole hfilled.1 (hfilled.2.1.agree hag (Nat.mul_lt_mul_of_pos_right hfilled.1 hW)
        (htop hfilled.1) hz.top_le_last)
  | filled o hlt filler =>
    have hcross := hcrossed fun heq => absurd (congrArg List.length heq) (by simp)
    have hfiller := filler.agree hag.symm hsep' hz.top_le_last
    have hex : z.first < z.keep ∧ CrossedByDead objs (z.keep * W)
        ∧ ∃ o, Filler objs (z.first * W) (z.keep * W) z.top minimum o :=
      ⟨hlt, hcross.agree hag.symm (Nat.mul_lt_mul_of_pos_right hlt hW) (htop hlt) hz.top_le_last, o,
        hfiller⟩
    rw [dif_pos hex, hfiller.unique hex.2.2.choose_spec hsep]
    rfl

/-! ## The objects of a zone -/

/-- The objects that lie in the zone, below its top. -/
def held (z : Zone) (W : ℕ) (objs : List Span) : List Span :=
  objs.filter fun o => z.first * W ≤ o.start ∧ o.past ≤ z.top

lemma mem_held : o ∈ z.held W objs ↔ o ∈ objs ∧ z.Holds W o := by
  rw [held, List.mem_filter, decide_eq_true_eq]
  rfl

lemma held_append (z : Zone) (W : ℕ) (objs os : List Span) :
    z.held W (objs ++ os) = z.held W objs ++ z.held W os :=
  List.filter_append ..

/-- Objects with no word in the zone are not held. -/
lemma held_of_misses {words : ℕ} (hz : z.Ordered W words) (hsep : Separate objs)
    (hmiss : ∀ o ∈ objs, z.Misses W o) :
    z.held W objs = [] := by
  rw [List.eq_nil_iff_forall_not_mem]
  intro o ho
  obtain ⟨hin, h1, h2⟩ := mem_held.1 ho
  have hpos := hsep.start_lt_past hin
  have htop := hz.top_le_last
  rcases hmiss o hin with hle | hle <;> omega

end Zone

/-- The space `s'` is the space `s` in which the objects of the zone have been counted. -/
structure Space.Tallied (s s' : Space) (W : ℕ) (objs : List Span) (z : Zone) : Prop where
  name : s'.name = s.name
  deadRatio : s'.deadRatio = s.deadRatio
  liveWords : s'.liveWords = ((z.held W objs).map Span.words).sum
  liveObjects : s'.liveObjects = (z.held W objs).length

/-- Objects that the zone does not hold have not been counted. -/
lemma Space.Tallied.of_append {s s' : Space} (h : s.Tallied s' W (os ++ objs) z)
    (hos : z.held W os = []) : s.Tallied s' W objs z where
  name := h.name
  deadRatio := h.deadRatio
  liveWords := by rw [h.liveWords, Zone.held_append, hos, List.nil_append]
  liveObjects := by rw [h.liveObjects, Zone.held_append, hos, List.nil_append]

/-- Without a dense prefix, the data of a zone ends as many words behind its bottom as its objects
have. -/
theorem Zone.newTop_eq_add_sum {words : ℕ} (hsep : Separate objs) (hz : z.Ordered W words)
    (hkeep : z.keep = z.first) (hbounds : z.Bounds W objs) :
    z.newTop W objs = z.first * W + ((z.held W objs).map Span.words).sum := by
  have hle := hz.first_le_top
  have htop := hz.top_le_last
  rw [newTop, packed, hkeep, liveBelow_eq_add_sum hsep hle fun o ho => ?_, Nat.add_sub_cancel_left]
  · rfl
  · rcases hbounds o ho with hholds | hmiss | hmiss
    · exact Or.inl hholds
    · exact Or.inr (Or.inl hmiss)
    · exact Or.inr (Or.inr (htop.trans hmiss))

end MarkCompact
