import MarkCompact.DensePrefix
import MarkCompact.Proofs.Accounting
import MarkCompact.Proofs.Zones

/-!
# The filler at the end of a dense prefix

Dead space crosses a boundary if neither the word before it nor the word at it is live.  Then
`fillPrefixEnd` marks and accounts one more object, a `Filler` of that dead space, and otherwise it
changes nothing.

Main statements: `prefixFiller?_eq`, which filler is chosen, and `fillPrefixEnd_leads`, what it does
to the heap.
-/

namespace MarkCompact

variable {objs : List Span} {o : Span} {W a b k w : ℕ} {z : Zone}

/-! ## Dead space at a boundary -/

/-- The word before the boundary and the word at it are dead. -/
def CrossedByDead (objs : List Span) (b : ℕ) : Prop :=
  ¬Live objs (b - 1) ∧ ¬Live objs b

/-- The object fills the dead space across `boundary`, from its start on.  It ends at the boundary,
or it is as small as objects can be. -/
structure Filler (objs : List Span) (bottom boundary top minimum : ℕ) (o : Span) : Prop where
  bottom_le : bottom ≤ o.start
  start_lt : o.start < boundary
  boundary_le : boundary ≤ o.past
  past_le : o.past ≤ top
  dead : Dead objs o.start o.past
  follows : o.start = bottom ∨ ∃ o' ∈ objs, o'.past = o.start
  minimum_le : minimum ≤ o.words
  least : boundary < o.past → o.words = minimum

/-- Dead space that crosses the boundary has room for an object of `minimum` words. -/
def FillerFits (objs : List Span) (bottom boundary top minimum : ℕ) : Prop :=
  CrossedByDead objs boundary → ∃ a b, bottom ≤ a ∧ a ≤ boundary ∧ boundary ≤ b ∧ b ≤ top
    ∧ Dead objs a b
    ∧ a + minimum ≤ b

/-- Dead space from word `g` on, where the objects in front of it end, crosses the boundary. -/
structure Crossing (objs : List Span) (bottom g boundary : ℕ) : Prop where
  bottom_le : bottom ≤ g
  lt : g < boundary
  dead : Dead objs g boundary
  follows : g = bottom ∨ ∃ o ∈ objs, o.past = g
  crossed : CrossedByDead objs boundary

/-- Objects of one word fit everywhere. -/
lemma fillerFits_one (hbottom : a < k) (htop : k ≤ b) : FillerFits objs a k b 1 := fun hcross =>
  ⟨k - 1, k, by omega, by omega, le_refl _, htop, fun w h1 h2 => by
    obtain rfl : w = k - 1 := by omega
    exact hcross.1, by omega⟩

/-- A filler is apart from the objects. -/
lemma Filler.separate {bottom boundary top minimum : ℕ}
    (h : Filler objs bottom boundary top minimum o) (hsep : Separate objs) :
    Separate (o :: objs) := by
  have hlt := h.start_lt
  have hle := h.boundary_le
  refine hsep.cons (by simp only [Span.past] at hle; omega) fun o' ho' => ?_
  have hpos := hsep.start_lt_past ho'
  by_contra hap
  simp only [Span.Apart, not_or, not_le] at hap
  -- The two would share the later of their starts.
  exact h.dead (max o.start o'.start) (le_max_left ..) (by omega)
    ⟨o', ho', le_max_right .., by omega⟩

/-- No object is cut where dead space crosses. -/
lemma CrossedByDead.boundary (h : CrossedByDead objs b) : Boundary objs b := fun o ho hcross =>
  h.2 ⟨o, ho, le_of_lt hcross.1, hcross.2⟩

namespace Crossing

variable {bottom g boundary top next minimum : ℕ}

/-- The filler ends at the boundary if it is large enough then. -/
lemma filler_to_boundary (h : Crossing objs bottom g boundary) (htop : boundary ≤ top)
    (hsize : minimum ≤ boundary - g) :
    Filler objs bottom boundary top minimum ⟨g, boundary - g⟩ := by
  have hpast : (⟨g, boundary - g⟩ : Span).past = boundary := Nat.add_sub_of_le h.lt.le
  exact ⟨h.bottom_le, h.lt, hpast.ge, hpast.trans_le htop, by rw [hpast]; exact h.dead,
    h.follows, hsize,
    fun hlt => absurd hpast hlt.ne'⟩

/-- Otherwise it takes up some of the dead space behind the boundary. -/
lemma filler_of_room (h : Crossing objs bottom g boundary) (hsmall : boundary - g < minimum)
    (hroom : g + minimum ≤ next) (hnext : next ≤ top) (hdead : Dead objs boundary next) :
    Filler objs bottom boundary top minimum ⟨g, minimum⟩ := by
  have hpast : (⟨g, minimum⟩ : Span).past = g + minimum := rfl
  have hlt := h.lt
  refine ⟨h.bottom_le, hlt, by omega, by omega, fun w h1 h2 => ?_, h.follows, le_refl _,
    fun _ => rfl⟩
  change g ≤ w at h1
  by_cases hbelow : w < boundary
  · exact h.dead w h1 hbelow
  · exact hdead w (not_lt.1 hbelow) (by omega)

/-- All the dead space across the boundary lies between `g` and the next object. -/
lemma not_fillerFits (h : Crossing objs bottom g boundary) (hsep : Separate objs)
    (hle : boundary ≤ next) (hnext : next < top → Starts objs next) (hsmall : next - g < minimum) :
    ¬FillerFits objs bottom boundary top minimum := by
  intro hfits
  obtain ⟨a, b, ha1, ha2, hb1, hb2, hdead, hroom⟩ := hfits h.crossed
  have hlow : g ≤ a := by
    rcases h.follows with rfl | ⟨o, ho, rfl⟩
    · exact ha1
    · by_contra hlt
      have hpos := hsep.start_lt_past ho
      have hbelow := h.lt
      exact hdead (max a o.start) (le_max_left ..) (by omega) ⟨o, ho, le_max_right .., by omega⟩
  have hhigh : b ≤ next := by
    by_contra hlt
    obtain ⟨o, ho, rfl⟩ := hnext (by omega)
    exact hdead o.start (by omega) (by omega) (live_of_mem ho ⟨le_refl _, hsep.start_lt_past ho⟩)
  omega

end Crossing

lemma Filler.holds {boundary minimum : ℕ} (h : Filler objs (z.first * W) boundary z.top minimum o) :
    z.Holds W o :=
  ⟨h.bottom_le, h.past_le⟩

namespace MarkBitmap.Marks

variable {m : MarkBitmap}

lemma firstBegin_eq (h : m.Marks objs) (hab : a ≤ b) (hb : b ≤ m.covered.words) :
    m.firstBegin (m.covered.addr a)
      (m.covered.addr b) = .ok (m.covered.addr (m.begins.firstIn a b)) := by
  rw [firstBegin, h.bitOf_addr (by omega), ok_bind, h.bitOf_addr hb, ok_bind, Bitset.firstIn?,
    Bitset.checkRange_eq hab (h.begins_size ▸ hb)]
  rfl

/-- Behind the last end before a boundary everything is dead. -/
lemma lastIn_ends (h : m.Marks objs) (hb : Boundary objs b) :
    match m.ends.lastIn a b with
    | some last => (∃ o ∈ objs, o.past = last + 1) ∧ a ≤ last ∧ last < b ∧ Dead objs (last + 1) b
    | none => Dead objs a b := by
  obtain ⟨found, none⟩ := Bitset.lastIn_spec h.ends_valid a b
  -- An object with a word in the range ends in the range.
  have hend : ∀ w o, o ∈ objs → o.Covers w → a ≤ w → w < b →
      m.ends.mem (o.past - 1) ∧ w ≤ o.past - 1 ∧ o.past - 1 < b := by
    intro w o ho hw h1 h2
    have hpos := h.separate.start_lt_past ho
    have hle : o.past ≤ b := by
      by_contra hgt
      exact hb o ho ⟨lt_of_le_of_lt hw.1 h2, not_le.1 hgt⟩
    have hcov := hw.2
    exact ⟨(h.mem_ends _).2 ⟨o, ho, by omega⟩, by omega, by omega⟩
  cases hlast : m.ends.lastIn a b with
  | none =>
    rintro w h1 h2 ⟨o, ho, hw⟩
    obtain ⟨hmem, hlow, hhigh⟩ := hend w o ho hw h1 h2
    exact none hlast _ (by omega) hhigh hmem
  | some last =>
    obtain ⟨hlow, hhigh, hmem, hafter⟩ := found last hlast
    refine ⟨(h.mem_ends last).1 hmem, hlow, hhigh, ?_⟩
    rintro w h1 h2 ⟨o, ho, hw⟩
    obtain ⟨hmem', hlow', hhigh'⟩ := hend w o ho hw (by omega) h2
    exact hafter _ (by omega) hhigh' hmem'

/-- The checks at a region start tell whether dead space crosses it. -/
lemma deadSpaceCrosses_eq (h : m.Marks objs) {a : Region} (hpos : 0 < W) (hk : 0 < k)
    (hwords : k * W < m.covered.words) (hpartial : a.partialWords = partialOf objs W k) :
    ∃ crosses, deadSpaceCrosses a (k * W) m = .ok crosses ∧ (crosses = true
      ↔ CrossedByDead objs (k * W)) := by
  have hkW : 0 < k * W := Nat.mul_pos hk hpos
  rw [deadSpaceCrosses, if_neg (by omega), hpartial]
  by_cases hjoined : partialOf objs W k ≠ 0
  · rw [if_pos hjoined]
    refine ⟨false, rfl, by simp, fun hcross => absurd ?_ hcross.2⟩
    exact live_of_lt_partialOf h.separate (le_refl _) (by omega)
  rw [if_neg hjoined]
  rw [ne_eq, not_not] at hjoined
  have hb : Boundary objs (k * W) := by
    have hb := boundary_partialOf h.separate (W := W) (r := k) (by omega)
    rwa [hjoined, Nat.add_zero] at hb
  have hread : m.begins.read (k * W) = .ok (m.begins.mem (k * W)) := by
    rw [Bitset.read, if_pos (h.begins_size ▸ hwords)]
    rfl
  have hread' : m.ends.read (k * W - 1) = .ok (m.ends.mem (k * W - 1)) := by
    rw [Bitset.read, if_pos (by rw [h.ends_size]; omega)]
    rfl
  dsimp only
  rw [hread, ok_bind]
  by_cases hstart : m.begins.mem (k * W) = true
  · rw [if_pos hstart]
    obtain ⟨o, ho, heq⟩ := (h.mem_begins _).1 hstart
    refine ⟨false, rfl, by simp, fun hcross => absurd ?_ hcross.2⟩
    exact live_of_mem ho ⟨le_of_eq heq, by rw [← heq]; exact h.separate.start_lt_past ho⟩
  rw [if_neg hstart, hread', ok_bind]
  refine ⟨!m.ends.mem (k * W - 1), rfl, ?_⟩
  have hdead : ¬Live objs (k * W) :=
    fun hlive => hstart ((h.mem_begins _).2 (hb.starts_of_live hlive))
  rw [Bool.not_eq_true', Bool.eq_false_iff, ne_eq, h.mem_ends]
  constructor
  · intro hend
    refine ⟨?_, hdead⟩
    rintro ⟨o, ho, h1, h2⟩
    refine hend ⟨o, ho, ?_⟩
    by_contra hne
    exact hb o ho ⟨by omega, by omega⟩
  · rintro ⟨hbefore, _⟩ ⟨o, ho, hpast⟩
    have hpos := h.separate.start_lt_past ho
    exact hbefore ⟨o, ho, by omega, by omega⟩

/-- The dead space before a word starts behind the last object, or at the bottom of the space. -/
lemma deadSpaceStart_eq (h : m.Marks objs) (hab : a ≤ b) (hb : Boundary objs b)
    (hwords : b ≤ m.covered.words) :
    ∃ g, deadSpaceStart m (m.covered.addr a) b = .ok (m.covered.addr g) ∧ a ≤ g ∧ g ≤ b
      ∧ Dead objs g b
      ∧ (g = a ∨ ∃ o ∈ objs, o.past = g) := by
  have hlast := h.lastIn_ends (a := a) hb
  rw [deadSpaceStart, h.bitOf_addr (by omega), ok_bind, Bitset.lastIn?,
    Bitset.checkRange_eq hab (h.ends_size ▸ hwords)]
  cases hfound : m.ends.lastIn a b with
  | none =>
    rw [hfound] at hlast
    exact ⟨a, by simp only [bind, Except.bind, pure, Except.pure], le_refl _, hab,
      hlast, Or.inl rfl⟩
  | some last =>
    rw [hfound] at hlast
    obtain ⟨hpast, h1, h2, hdead⟩ := hlast
    exact ⟨last + 1, by simp only [bind, Except.bind, pure, Except.pure, addrOf_eq], by omega, h2,
      hdead, Or.inr hpast⟩

/-- If dead space crosses the boundary, it does not start there. -/
lemma crossing (h : m.Marks objs) (hab : a < b) (hwords : b ≤ m.covered.words)
    (hcross : CrossedByDead objs b) :
    ∃ g, deadSpaceStart m (m.covered.addr a) b = .ok (m.covered.addr g) ∧ Crossing objs a g b := by
  obtain ⟨g, hstart, h1, h2, hdead, hfollows⟩ := h.deadSpaceStart_eq hab.le hcross.boundary hwords
  refine ⟨g, hstart, h1, lt_of_le_of_ne h2 fun heq => ?_, hdead, hfollows, hcross⟩
  rcases hfollows with rfl | ⟨o, ho, hpast⟩
  · exact absurd heq hab.ne
  · have hpos := h.separate.start_lt_past ho
    exact hcross.1 ⟨o, ho, by omega, by omega⟩

end MarkBitmap.Marks

/-! ## The filler -/

namespace Heap

variable {μ : Type} [ObjectModel μ] {h : Heap μ} {s : Space} {i : ℕ}

/-- Which filler is chosen for a boundary.  There is a fault only if none fits. -/
theorem prefixFiller?_eq (hc : h.Consistent objs)
    (hs : s.Over h.table.covered h.table.geometry.regionWords z)
    (hz : z.Ordered h.table.geometry.regionWords h.table.covered.words) (hfirst : z.first < k)
    (htop : k * h.table.geometry.regionWords < z.top)
    (hpartial : (h.table.regions.get k).partialWords
      = partialOf objs h.table.geometry.regionWords k) :
    (h.prefixFiller? s (h.table.covered.addr (k * h.table.geometry.regionWords))
      (k * h.table.geometry.regionWords)
        = .ok none ∧ ¬CrossedByDead objs (k * h.table.geometry.regionWords))
      ∨ (∃ o, h.prefixFiller? s (h.table.covered.addr (k * h.table.geometry.regionWords))
            (k * h.table.geometry.regionWords) = .ok (some (o.run h.table.covered))
          ∧ CrossedByDead objs (k * h.table.geometry.regionWords)
          ∧ Filler objs (z.first * h.table.geometry.regionWords)
            (k * h.table.geometry.regionWords) z.top
            (ObjectModel.minimumWords h.image) o)
      ∨ ∃ fault, h.prefixFiller? s (h.table.covered.addr (k * h.table.geometry.regionWords))
            (k * h.table.geometry.regionWords) = .error fault
          ∧ ¬FillerFits objs (z.first * h.table.geometry.regionWords)
            (k * h.table.geometry.regionWords) z.top
            (ObjectModel.minimumWords h.image) := by
  have hW := h.table.geometry.regionWords_pos
  have hlast := hz.top_le_last
  have hwords := hz.last_le
  have hbottom : z.first * h.table.geometry.regionWords < k * h.table.geometry.regionWords :=
    Nat.mul_lt_mul_of_pos_right hfirst hW
  have hcovered := hc.bitmap_covered
  have hregion : k < h.table.geometry.regionCount := by
    have :=
      hc.laid.region_lt (show k * h.table.geometry.regionWords < h.table.covered.words by omega)
    rwa [Nat.mul_div_cancel _ hW] at this
  obtain ⟨crosses, hdead, hiff⟩ :=
    hc.marks.deadSpaceCrosses_eq hW (by omega) (by rw [hc.words_eq]; omega) hpartial
  rw [prefixFiller?, hc.laid.regionOf_addr (by omega), ok_bind, Nat.mul_div_cancel _ hW,
    RegionTable.Laid.region_eq hregion, ok_bind, hdead, ok_bind]
  cases crosses with
  | false => exact Or.inl ⟨rfl, by simpa using hiff⟩
  | true =>
    right
    have hcross := hiff.1 rfl
    obtain ⟨g, hstart, crossing⟩ := hc.marks.crossing hbottom (by rw [hc.words_eq]; omega) hcross
    have hlt := crossing.lt
    rw [hcovered] at hstart
    rw [if_pos rfl, hs.bottom, hstart, ok_bind, Extent.delta_addr hlt.le, ok_bind]
    dsimp only
    by_cases hsmall : k * h.table.geometry.regionWords - g < ObjectModel.minimumWords h.image
    · -- The dead space goes on to the next object or the top.
      have found := hc.marks.firstIn_begins (le_of_lt htop)
      have hdeadNext := dead_start hcross.boundary found
      have hnextGe := found.start_le
      have hfirstBegin := hc.marks.firstBegin_eq (le_of_lt htop) (by rw [hc.words_eq]; omega)
      rw [hcovered, ← hs.top] at hfirstBegin
      rw [if_pos hsmall, hfirstBegin, ok_bind, Extent.delta_addr (by omega), ok_bind]
      generalize h.bitmap.begins.firstIn (k * h.table.geometry.regionWords) z.top = next
        at found hdeadNext hnextGe ⊢
      by_cases hroom : next - g < ObjectModel.minimumWords h.image
      · rw [if_pos hroom]
        exact Or.inr ⟨_, rfl, crossing.not_fillerFits hc.marks.separate hnextGe found.holds hroom⟩
      · rw [if_neg hroom]
        exact Or.inl ⟨⟨g, ObjectModel.minimumWords h.image⟩, rfl, hcross,
          crossing.filler_of_room hsmall (by omega) found.le_stop hdeadNext⟩
    · rw [if_neg hsmall]
      exact Or.inl ⟨⟨g, k * h.table.geometry.regionWords - g⟩, rfl, hcross,
        crossing.filler_to_boundary htop.le (not_lt.1 hsmall)⟩

/-- What the heap `h'` holds after the filler `o` has been added to space `i` of `h`. -/
structure FillerAdded (h h' : Heap μ) (i : ℕ) (s : Space) (objs : List Span) (o : Span) : Prop where
  covered : h'.covered = h.covered
  geometry : h'.geometry = h.geometry
  image : ObjectModel.fillDead h.image (h.table.covered.addr o.start) o.words = .ok h'.image
  updates : h'.updates = h.updates
  consistent : h'.Consistent (o :: objs)
  shape : h.table.SameShape h'.table
  blocks : h'.table.blocks = h.table.blocks
  regions : ∀ r, h'.table.regions.get r
    = (h.table.regions.get r).account h.table.geometry.regionWords
      (h.table.covered.addr o.start) o r
  spaces : ∃ starts, h'.spaces = h.spaces.set i { s with starts }
    ∧ starts.covered = s.starts.covered
    ∧ ∀ must may : ℕ → Prop, s.starts.Between h.table.covered must may → may o.start →
      starts.Between h.table.covered (fun i => must i ∨ i = o.start) may

/-- Adding a filler marks it, accounts it and records its start. -/
theorem addFiller_runs (hc : h.Consistent objs) (hspace : h.spaces[i]? = some s)
    (hs : s.Over h.table.covered h.table.geometry.regionWords z)
    (hz : z.Ordered h.table.geometry.regionWords h.table.covered.words) {boundary minimum : ℕ}
    (hfiller : Filler objs (z.first * h.table.geometry.regionWords) boundary z.top minimum o)
    (haccounts : (h.table.regions.get (o.start / h.table.geometry.regionWords)).Accounts objs
      h.table.geometry.regionWords (o.start / h.table.geometry.regionWords))
    {image : μ} (himage : ObjectModel.fillDead h.image (h.table.covered.addr o.start) o.words
      = .ok image) :
    Runs (addFiller i (o.run h.table.covered)) h fun _ h' => h.FillerAdded h' i s objs o := by
  have hlast := hz.top_le_last
  have hwords := hz.last_le
  have hpast := hfiller.past_le
  have hlow := hfiller.bottom_le
  have hlt := hfiller.start_lt
  have hle := hfiller.boundary_le
  have hsep := hfiller.separate hc.marks.separate
  obtain ⟨h1, h2⟩ := div_mul_bounds h.table.geometry.regionWords_pos o.start
  obtain ⟨m', hmark, hmarks, hcovered⟩ := hc.marks.mark_eq hsep (by rw [hc.words_eq]; omega)
    (by rw [hc.words_eq]; exact hc.laid.words_lt)
  obtain ⟨t', htable, hshape, hblocks, hregions⟩ := RegionTable.addObject_eq hc.laid
    (hsep.words_pos o (List.mem_cons_self ..)) (by omega)
      (haccounts.head_room hsep hc.laid.regionWords_lt h1 h2)
  obtain ⟨starts, hrecord, hstarts, hbetween⟩ := hs.recordStart_eq hlow (show o.start < _ by omega)
  rw [hc.bitmap_covered] at hmark
  rw [addFiller, runs_bind]
  refine (runs_onImage himage).2 ?_
  simp only [addObject, Span.run, runs_bind, runs_get, hmark, runs_check_ok, runs_set]
  refine (runs_onTable htable).2 (runs_pure.2 ?_)
  refine (runs_onSpace ?_ hrecord).2 ?_
  · exact hspace
  exact
    { covered := rfl
      geometry := rfl
      image := himage
      updates := rfl
      consistent :=
        ⟨hshape.laid hc.laid, hmarks, hcovered.trans (hc.bitmap_covered.trans hshape.covered.symm),
          hc.covered.trans hshape.covered.symm, hc.geometry.trans hshape.geometry.symm⟩
      shape := hshape
      blocks := hblocks
      regions := hregions
      spaces := ⟨starts, rfl, hstarts, hbetween⟩ }

/-- The end of a dense prefix is filled if dead space crosses it, and nothing but the log changes
otherwise.  There is a fault only if no filler fits. -/
theorem fillPrefixEnd_leads (hc : h.Consistent objs) (hspace : h.spaces[i]? = some s)
    (hs : s.Over h.table.covered h.table.geometry.regionWords z)
    (hdense : s.densePrefix = h.table.covered.addr (z.keep * h.table.geometry.regionWords))
    (hz : z.Ordered h.table.geometry.regionWords h.table.covered.words)
    (hfirst : z.first < z.keep) (htop : z.keep * h.table.geometry.regionWords < z.top)
    (haccounts : ∀ r, z.first ≤ r → r < z.last →
      (h.table.regions.get r).Accounts objs h.table.geometry.regionWords r)
    (hfill : ∀ addr words, ObjectModel.minimumWords h.image ≤ words → 0 < words →
      ∃ image, ObjectModel.fillDead h.image addr words = .ok image) :
    Leads (fun _ => ¬FillerFits objs (z.first * h.table.geometry.regionWords)
      (z.keep * h.table.geometry.regionWords) z.top
        (ObjectModel.minimumWords h.image)) (fillPrefixEnd i) h fun _ h' =>
      (h' = h ∧ ¬CrossedByDead objs (z.keep * h.table.geometry.regionWords))
      ∨ ∃ o, CrossedByDead objs (z.keep * h.table.geometry.regionWords)
        ∧ Filler objs (z.first * h.table.geometry.regionWords)
          (z.keep * h.table.geometry.regionWords) z.top
          (ObjectModel.minimumWords h.image) o ∧ h.FillerAdded h' i s objs o := by
  have hW := h.table.geometry.regionWords_pos
  have hlast := hz.top_le_last
  have hwords := hz.last_le
  have hkeep : z.keep < z.last := by
    by_contra hle
    have := Nat.mul_le_mul_right h.table.geometry.regionWords (not_lt.1 hle)
    omega
  have hbit : h.bitmap.bitOf s.densePrefix = .ok (z.keep * h.table.geometry.regionWords) := by
    rw [hdense, ← hc.bitmap_covered, hc.marks.bitOf_addr (by rw [hc.words_eq]; omega)]
  have hchoice :=
    prefixFiller?_eq hc hs hz hfirst htop (haccounts z.keep (le_of_lt hfirst) hkeep).partial_eq
  rw [← hdense] at hchoice
  simp only [fillPrefixEnd, leads_bind, leads_get, space_eq hspace, leads_check_ok, hbit]
  rcases hchoice with ⟨hnone, hcross⟩ | ⟨o, hsome, hcross, hfiller⟩ | ⟨fault, hfault, hmisfit⟩
  · rw [hnone, leads_check_ok]
    exact leads_pure.2 (Or.inl ⟨rfl, hcross⟩)
  · have hlow := hfiller.bottom_le
    have hlt := hfiller.start_lt
    have hle := hfiller.boundary_le
    obtain ⟨image, himage⟩ := hfill (h.table.covered.addr o.start) o.words hfiller.minimum_le
      (by simp only [Span.past] at hle; omega)
    have hregion : o.start / h.table.geometry.regionWords < z.last := div_lt_of_lt_mul (by omega)
    rw [hsome, leads_check_ok]
    simp only [leads_bind, leads_report]
    generalize _ :: h.log = log
    have hadd := addFiller_runs (hc.withLog log) hspace hs hz hfiller
      (haccounts _ ((Nat.le_div_iff_mul_le hW).2 hlow) hregion) himage
    exact hadd.leads.mono fun _ h' hadded =>
      Or.inr ⟨o, hcross, hfiller, hadded.covered, hadded.geometry, hadded.image, hadded.updates,
        hadded.consistent, hadded.shape, hadded.blocks, hadded.regions, hadded.spaces⟩
  · rw [hfault]
    exact hmisfit

/-- If a filler fits, there is no fault. -/
theorem fillPrefixEnd_runs (hc : h.Consistent objs) (hspace : h.spaces[i]? = some s)
    (hs : s.Over h.table.covered h.table.geometry.regionWords z)
    (hdense : s.densePrefix = h.table.covered.addr (z.keep * h.table.geometry.regionWords))
    (hz : z.Ordered h.table.geometry.regionWords h.table.covered.words)
    (hfirst : z.first < z.keep) (htop : z.keep * h.table.geometry.regionWords < z.top)
    (haccounts : ∀ r, z.first ≤ r → r < z.last →
      (h.table.regions.get r).Accounts objs h.table.geometry.regionWords r)
    (hfits : FillerFits objs (z.first * h.table.geometry.regionWords)
      (z.keep * h.table.geometry.regionWords) z.top
      (ObjectModel.minimumWords h.image))
    (hfill : ∀ addr words, ObjectModel.minimumWords h.image ≤ words → 0 < words →
      ∃ image, ObjectModel.fillDead h.image addr words = .ok image) :
    Runs (fillPrefixEnd i) h fun _ h' =>
      (h' = h ∧ ¬CrossedByDead objs (z.keep * h.table.geometry.regionWords))
      ∨ ∃ o, CrossedByDead objs (z.keep * h.table.geometry.regionWords)
        ∧ Filler objs (z.first * h.table.geometry.regionWords)
          (z.keep * h.table.geometry.regionWords) z.top
          (ObjectModel.minimumWords h.image) o ∧ h.FillerAdded h' i s objs o :=
  (fillPrefixEnd_leads hc hspace hs hdense hz hfirst htop haccounts hfill).runs fun _ hmisfit =>
    hmisfit hfits

end Heap

end MarkCompact
