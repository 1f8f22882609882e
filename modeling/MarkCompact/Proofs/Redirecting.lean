import MarkCompact.Adjust
import MarkCompact.Proofs.Images
import MarkCompact.Proofs.NarrowReferences
import MarkCompact.Proofs.Releasing

/-!
# Redirecting references

Once a plan is in the tables, a reference to a live word is redirected to the place of the word, and
every other reference stays.  Redirecting the references of an object changes the words of its
references and nothing else.

Main statements: `adjustCell_runs` (one reference), `adjustSlots_runs` (references at places that do
not meet) and `updateContents_runs` (all references of an object, wherever its words are).
-/

namespace MarkCompact

variable {e : Extent} {b : Place} {a n w x : ℕ} {p : Plan}

/-! ## What places refer to -/

namespace Place

/-- The address that the place refers to while it holds `x`. -/
def load (e : Extent) : Place → (x : ℕ) → ℕ
  | word _, x => x
  | half _, x => if x = 0 then 0 else e.start - bytesPerWord + 8 * x

/-- What the place holds to refer to word `w`. -/
def refer (e : Extent) : Place → (w : ℕ) → ℕ
  | word _, w => e.addr w
  | half _, w => w + 1

/-- The place that lies `a` words behind. -/
def behind (a : ℕ) : Place → Place
  | word i => word (a + i)
  | half j => half (2 * a + j)

lemma index_behind (a : ℕ) (b : Place) : (b.behind a).index = a + b.index := by
  cases b with
  | word i => rfl
  | half j =>
    show (2 * a + j) / 2 = a + j / 2
    omega

lemma get_behind (a : ℕ) (b : Place) (x : ℕ) : (b.behind a).get x = b.get x := by
  cases b with
  | word i => rfl
  | half j =>
    show (if (2 * a + j) % 2 = 1 then _ else _) = _
    rw [Nat.mul_add_mod]
    rfl

lemma load_behind (e : Extent) (a : ℕ) (b : Place) (x : ℕ) :
    (b.behind a).load e x = b.load e x := by
  cases b <;> rfl

lemma load_refer (he : bytesPerWord ≤ e.start) (b : Place) (w : ℕ) :
    b.load e (b.refer e w) = e.addr w := by
  cases b with
  | word i => rfl
  | half j =>
    rw [bytesPerWord] at he
    rw [refer, load, if_neg (Nat.succ_ne_zero w), Extent.addr_eq, bytesPerWord]
    omega

/-- A place refers to a word in one way. -/
lemma eq_refer (he : bytesPerWord ≤ e.start) (h : b.load e x = e.addr w) : x = b.refer e w := by
  cases b with
  | word i => exact h
  | half j =>
    rw [bytesPerWord] at he
    rw [load, Extent.addr_eq, bytesPerWord] at h
    show x = w + 1
    split at h
    · omega
    · omega

lemma refer_mono (b : Place) (h : n ≤ w) : b.refer e n ≤ b.refer e w := by
  cases b with
  | word i => simpa [refer] using h
  | half j => exact Nat.succ_le_succ h

/-- Half a word is read by the codec of the heap. -/
lemma load_half (e : Extent) (j x : ℕ) :
    (half j).load e x = Codec.target ⟨e.start - bytesPerWord, 3⟩ x := by
  rw [load, Codec.target, Nat.mul_comm x]
  rfl

/-- Loading what a place holds. -/
lemma load_cell {c : Codec} (hc : c = ⟨e.start - bytesPerWord, 3⟩) (hlt : b.load e x < wordValues) :
    (b.cell c x).load = .ok (b.load e x) := by
  subst hc
  cases b with
  | word i => rfl
  | half j =>
    rw [load_half] at hlt ⊢
    exact Codec.decode_eq (show 3 < bitsPerWord by decide) hlt

/-- What is loaded is what the place refers to, and is an address. -/
lemma of_load_cell {c : Codec} (hc : c = ⟨e.start - bytesPerWord, 3⟩) (hx : x < b.values)
    (h : (b.cell c x).load = .ok a) :
    b.load e x = a ∧ a < wordValues := by
  subst hc
  cases b with
  | word i =>
    cases h
    exact ⟨rfl, hx⟩
  | half j =>
    obtain ⟨hlt, rfl⟩ := (Codec.decode_eq_ok_iff (show 3 ≤ 32 by decide) hx).1 h
    exact ⟨load_half e j x, hlt⟩

/-- Making a place refer to a word. -/
lemma store_cell {c : Codec} (hc : c = ⟨e.start - bytesPerWord, 3⟩) (he : bytesPerWord ≤ e.start)
    (hw : b.refer e w < b.values) :
    (b.cell c x).store (e.addr w) = .ok (b.cell c (b.refer e w)) := by
  subst hc
  cases b with
  | word i => rfl
  | half j =>
    have haddr : e.addr w = Codec.target ⟨e.start - bytesPerWord, 3⟩ (w + 1) :=
      (load_refer he (half j) w).symm.trans (load_half e j _)
    show (Codec.encode _ _ >>= _) = _
    rw [(Codec.encode_eq_ok_iff (show 3 < bitsPerWord by decide)).2 ⟨hw, haddr⟩]
    rfl

end Place

/-! ## Where a reference is redirected to -/

namespace Plan

/-- The address lies in a space. -/
def InSpace (p : Plan) (addr : ℕ) : Prop :=
  InZones p.covered p.regionWords p.zones addr

instance (p : Plan) (addr : ℕ) : Decidable (p.InSpace addr) :=
  inferInstanceAs (Decidable (InZones ..))

/-- The word at an address. -/
def wordOf (p : Plan) (addr : ℕ) : ℕ :=
  (addr - p.covered.start) / bytesPerWord

/-- Where a reference to `addr` is redirected to. -/
def redirect (p : Plan) (addr : ℕ) : ℕ :=
  if p.InSpace addr then p.covered.addr (p.forward (p.wordOf addr)) else addr

/-- What a place that holds `x` holds after its reference has been redirected. -/
def redirectAt (p : Plan) (b : Place) (x : ℕ) : ℕ :=
  if p.InSpace (b.load p.covered x)
    then b.refer p.covered (p.forward (p.wordOf (b.load p.covered x))) else x

/-- If the address lies in a space, it is that of a live word. -/
def Known (p : Plan) (addr : ℕ) : Prop :=
  p.InSpace addr → ∃ w, addr = p.covered.addr w ∧ Live p.objs w

/-- The reference at a place that holds `x` can be redirected. -/
structure Refers (p : Plan) (b : Place) (x : ℕ) : Prop where
  load_lt : b.load p.covered x < wordValues
  known : p.Known (b.load p.covered x)

@[simp] lemma wordOf_addr (p : Plan) (w : ℕ) : p.wordOf (p.covered.addr w) = w := by
  rw [wordOf, Extent.addr_eq, bytesPerWord]
  omega

lemma redirect_addr (h : p.InSpace (p.covered.addr w)) :
    p.redirect (p.covered.addr w) = p.covered.addr (p.forward w) := by
  rw [redirect, if_pos h, wordOf_addr]

lemma redirect_of_not_inSpace (h : ¬p.InSpace a) : p.redirect a = a :=
  if_neg h

/-- References move to lower addresses. -/
lemma Known.redirect_le (h : p.Known a) (hp : p.Valid) : p.redirect a ≤ a := by
  by_cases hin : p.InSpace a
  · obtain ⟨w, rfl, hw⟩ := h hin
    rw [redirect_addr hin, Extent.addr_le_addr]
    exact hp.forward_le hw
  · rw [redirect_of_not_inSpace hin]

lemma FitsMemory.redirect_zero (hp : p.FitsMemory) : p.redirect 0 = 0 :=
  redirect_of_not_inSpace fun hin => InZones.ne_zero hin (lt_of_lt_of_le (by decide) hp.base_le) rfl

lemma redirectAt_of_not_inSpace (h : ¬p.InSpace (b.load p.covered x)) : p.redirectAt b x = x :=
  if_neg h

lemma redirectAt_eq (h : p.InSpace (b.load p.covered x))
    (heq : b.load p.covered x = p.covered.addr w) :
    p.redirectAt b x = b.refer p.covered (p.forward w) := by
  rw [redirectAt, if_pos h, heq, wordOf_addr]

/-- A live word lies in a space. -/
lemma Valid.inSpace (hp : p.Valid) (hw : Live p.objs w) : p.InSpace (p.covered.addr w) := by
  obtain ⟨z, hz, hhas, _⟩ := hp.exists_zone hw
  exact ⟨z, hz, by simpa using hhas.1, by simpa using hhas.2⟩

/-- The heap has the tables of the plan. -/
structure Serves {μ : Type} (p : Plan) (h : Heap μ) : Prop where
  consistent : h.Consistent p.objs
  loaded : p.Loaded h.table
  spaces : List.Forall₂ (fun s z => s.Matches p.covered p.regionWords p.objs z) h.spaces p.zones

/-- The heap holds the plan, and compaction has not begun. -/
structure Unbegun {μ : Type} (p : Plan) (h : Heap μ) : Prop where
  serves : p.Serves h
  untouched : ∀ z ∈ p.zones, h.table.Untouched p.objs z

namespace Serves

variable {μ : Type} {h : Heap μ}

lemma covered (hs : p.Serves h) : h.covered = p.covered :=
  hs.consistent.covered.trans hs.loaded.covered

lemma bitmap_covered (hs : p.Serves h) : h.bitmap.covered = p.covered :=
  hs.consistent.bitmap_covered.trans hs.loaded.covered

lemma geometry (hs : p.Serves h) : h.geometry = p.geometry :=
  hs.consistent.geometry.trans hs.loaded.geometry

lemma regionStart_eq (hs : p.Serves h) (r : ℕ) :
    h.table.regionStart r = p.covered.addr (r * p.regionWords) :=
  hs.loaded.regionStart_eq r

lemma liesOver (hs : p.Serves h) (hp : p.Valid) : h.LiesOver p.regionWords p.zones where
  spaces_over := hs.spaces.imp fun _ _ hmatches => hs.covered ▸ hmatches.toOver
  ordered := hs.covered ▸ hp.ordered
  apart := hp.apart

lemma exists_space (hs : p.Serves h) {i : ℕ} {z : Zone} (hz : p.zones[i]? = some z) :
    ∃ s, h.spaces[i]? = some s ∧ s.Matches p.covered p.regionWords p.objs z := by
  obtain ⟨hi, rfl⟩ := List.getElem?_eq_some_iff.1 hz
  have hi' : i < h.spaces.length := hs.spaces.length_eq ▸ hi
  exact ⟨h.spaces[i], List.getElem?_eq_getElem hi', hs.spaces.get hi' hi⟩

lemma isInSpace_iff (hs : p.Serves h) (hp : p.Valid) : h.isInSpace a = true ↔ p.InSpace a := by
  rw [(hs.liesOver hp).isInSpace_iff, hs.covered]
  rfl

lemma exists_zone (hs : p.Serves h) {i : ℕ} {s : Space} (hi : h.spaces[i]? = some s) :
    ∃ z, p.zones[i]? = some z ∧ s.Matches p.covered p.regionWords p.objs z := by
  obtain ⟨hlt, rfl⟩ := List.getElem?_eq_some_iff.1 hi
  have hlt' : i < p.zones.length := hs.spaces.length_eq ▸ hlt
  exact ⟨p.zones[i], List.getElem?_eq_getElem hlt', hs.spaces.get hlt hlt'⟩

/-- What changes while compaction runs keeps the plan in the tables. -/
lemma advance {h' : Heap μ} (hs : p.Serves h) (hadv : RegionTable.Advances p.objs h.table h'.table)
    (hbitmap : h'.bitmap = h.bitmap) (hcovered : h'.covered = h.covered)
    (hgeometry : h'.geometry = h.geometry)
    (hspaces : List.Forall₂
      (fun s z => s.Matches p.covered p.regionWords p.objs z) h'.spaces p.zones) : p.Serves h' where
  consistent := hs.consistent.of_sameShape hbitmap hcovered hgeometry hadv.shape
  loaded := hs.loaded.advance hadv
  spaces := hspaces

lemma withLog (hs : p.Serves h) (log : List LogRecord) : p.Serves { h with log } :=
  ⟨hs.consistent.withLog log, hs.loaded, hs.spaces⟩

/-- A space whose start table is replaced still serves the plan. -/
lemma setSpace (hs : p.Serves h) {i : ℕ} {z : Zone} {s : Space} {starts : StartTable}
    (hz : p.zones[i]? = some z) (hi : h.spaces[i]? = some s)
    (hcovered : starts.covered = s.starts.covered) : p.Serves (h.setSpace i { s with starts }) := by
  refine hs.advance (.refl _ _) rfl rfl rfl ?_
  show List.Forall₂ _ (h.spaces.set i _) p.zones
  have hold := List.forall₂_iff_get.1 hs.spaces
  obtain ⟨hlt, hspace⟩ := List.getElem?_eq_some_iff.1 hi
  obtain ⟨hlt', hzone⟩ := List.getElem?_eq_some_iff.1 hz
  have hmatches := hold.2 i hlt hlt'
  rw [List.get_eq_getElem, List.get_eq_getElem, hspace, hzone] at hmatches
  exact forall₂_set hs.spaces hz (hmatches.withStarts hcovered)

/-- The regions from the end of the dense prefix of a space up to its new top are those that receive
data. -/
lemma exists_destinations {s : Space} {z : Zone} (hs : p.Serves h) (hp : p.Valid) (hz : z ∈ p.zones)
    (hmatches : s.Matches p.covered p.regionWords p.objs z) :
    ∃ count, h.table.regionOf s.densePrefix = .ok z.keep
      ∧ h.table.regionUpTo s.newTop = .ok (z.keep + count)
      ∧ z.keep + count ≤ z.last ∧ ∀ x, (z.keep ≤ x ∧ x < z.keep + count)
      ↔ z.Receives p.regionWords p.objs x := by
  have hW := p.regionWords_pos
  have hord := hp.ordered z hz
  have hlaid := hs.loaded.laid
  have hlow : z.keep * p.regionWords ≤ z.newTop p.regionWords p.objs := z.le_packed _ _ _
  have hnewTop := hord.newTop_le p.objs
  have hlastWords := hord.last_le
  have htop := hord.top_le_last
  have hmono := upTo_mono hW hlow
  rw [upTo_mul hW] at hmono
  have hregion :=
    hlaid.regionOf_addr (i := z.keep * p.regionWords) (by rw [hs.loaded.covered]; omega)
  have hregionUpTo :=
    hlaid.regionUpTo_addr (i := z.newTop p.regionWords p.objs) (by rw [hs.loaded.covered]; omega)
  rw [hs.loaded.covered, hs.loaded.regionWords_eq] at hregion hregionUpTo
  refine ⟨upTo p.regionWords (z.newTop p.regionWords p.objs) - z.keep, ?_, ?_, ?_, fun x => ?_⟩
  · rw [hmatches.densePrefix, hregion, Nat.mul_div_cancel _ hW]
  · rw [hmatches.newTop, ← Zone.newTop, hregionUpTo, Nat.add_sub_cancel' hmono]
  · rw [Nat.add_sub_cancel' hmono, upTo_le_iff hW]
    omega
  · rw [Nat.add_sub_cancel' hmono, Zone.Receives, lt_upTo_iff hW]

end Serves

lemma refers_behind (n : ℕ) : p.Refers (b.behind n) x ↔ p.Refers b x := by
  constructor
  · rintro ⟨h1, h2⟩
    rw [Place.load_behind] at h1 h2
    exact ⟨h1, h2⟩
  · rintro ⟨h1, h2⟩
    rw [← Place.load_behind p.covered n] at h1 h2
    exact ⟨h1, h2⟩

/-- A reference to a live word is redirected to the place of the word. -/
theorem Refers.load_redirectAt (href : p.Refers b x) (hbase : bytesPerWord ≤ p.covered.start) :
    b.load p.covered (p.redirectAt b x) = p.redirect (b.load p.covered x) := by
  by_cases hin : p.InSpace (b.load p.covered x)
  · obtain ⟨w, heq, hw⟩ := href.known hin
    rw [redirectAt_eq hin heq, Place.load_refer hbase, heq, redirect_addr (heq ▸ hin)]
  · rw [redirectAt_of_not_inSpace hin, redirect_of_not_inSpace hin]

/-- A place can hold what its reference is redirected to. -/
lemma Refers.redirectAt_lt (href : p.Refers b x) (hp : p.Valid)
    (hbase : bytesPerWord ≤ p.covered.start) (hx : x < b.values) :
    p.redirectAt b x < b.values := by
  by_cases hin : p.InSpace (b.load p.covered x)
  · obtain ⟨w, heq, hw⟩ := href.known hin
    obtain rfl := Place.eq_refer hbase heq
    rw [redirectAt_eq hin heq]
    exact lt_of_le_of_lt (b.refer_mono (hp.forward_le hw)) hx
  · rw [redirectAt_of_not_inSpace hin]
    exact hx

end Plan

/-! ## One reference -/

namespace Heap

variable {μ : Type} {h : Heap μ}

/-- A live word is forwarded as planned. -/
lemma forward_runs (hp : p.Valid) (hs : p.Serves h) (hw : Live p.objs w) :
    Runs (forward (p.covered.addr w)) h fun target h' => target = p.covered.addr (p.forward w)
      ∧ ∃ t, h' = { h with table := t } ∧ RegionTable.Refilled p.objs h.table t := by
  obtain ⟨t, heq, hrefilled⟩ := hs.loaded.forward_eq hp hs.consistent.marks hs.bitmap_covered hw
  rw [forward]
  simp only [runs_bind, runs_get, heq, runs_check_ok, runs_set, runs_pure, true_and]
  exact ⟨t, rfl, hrefilled⟩

/-- A reference that does not point into a space stays. -/
lemma adjustCell_outside {traversal : Traversal} {cell : Cell} (hload : cell.load = .ok a)
    (hout : a = 0 ∨ h.isInSpace a = false) :
    Runs (adjustCell traversal cell) h fun out h' => out = (.untouched, cell) ∧ h' = h := by
  rw [adjustCell, runs_bind, hload, runs_check_ok, runs_bind, runs_get,
    if_pos (by rwa [Bool.not_eq_true]), runs_pure]
  exact ⟨rfl, rfl⟩

/-- A reference into a space that does not have to be cleared goes where its address is forwarded
to. -/
lemma adjustCell_survives {traversal : Traversal} {cell cell' : Cell} {target : ℕ}
    {post : Heap μ → Prop} (hload : cell.load = .ok a) (hne : a ≠ 0) (hin : h.isInSpace a = true)
    (hsurvives : traversal = .weak → h.isLiveWord a = .ok true)
    (hforward : Runs (forward a) h fun x h' => x = target ∧ post h')
    (hstays : target = a → cell' = cell) (hstore : cell.store target = .ok cell') :
    Runs (adjustCell traversal cell) h fun out h' => out = (.forwarded, cell') ∧ post h' := by
  have hgoes : Runs (do
      let x ← forward a
      if x = a then pure (Adjusted.forwarded, cell)
      else do
        let cell ← check (cell.store x)
        pure (Adjusted.forwarded, cell)) h fun out h' => out = (.forwarded, cell') ∧ post h' := by
    refine hforward.bind fun x h' => ?_
    rintro ⟨rfl, hpost⟩
    split
    case isTrue hsame =>
      rw [runs_pure, hstays hsame]
      exact ⟨rfl, hpost⟩
    case isFalse =>
      rw [runs_bind, hstore, runs_check_ok, runs_pure]
      exact ⟨rfl, hpost⟩
  rw [adjustCell, runs_bind, hload, runs_check_ok, runs_bind, runs_get, if_neg (by simp [hne, hin])]
  -- A weak reference is asked about first, and survives.
  by_cases hweak : traversal = .weak
  · rw [if_pos hweak, hsurvives hweak, runs_bind, runs_check_ok]
    dsimp only
    rw [if_pos rfl]
    exact hgoes
  · rw [if_neg hweak, runs_bind, runs_pure]
    dsimp only
    rw [if_pos rfl]
    exact hgoes

/-- A reference is redirected.  If it is weak, its word must be found live. -/
theorem adjustCell_runs {traversal : Traversal} {c : Codec} (hp : p.Valid)
    (hbase : bytesPerWord ≤ p.covered.start) (hs : p.Serves h)
    (hsurvives : traversal = .weak → p.InSpace (b.load p.covered x) →
      h.isLiveWord (b.load p.covered x) = .ok true)
    (hc : c = ⟨p.covered.start - bytesPerWord, 3⟩) (hx : x < b.values) (href : p.Refers b x) :
    Runs (adjustCell traversal (b.cell c x)) h fun out h' =>
      out = (if p.InSpace (b.load p.covered x) then .forwarded else .untouched, b.cell c
        (p.redirectAt b x))
        ∧ ∃ t, h' = { h with table := t } ∧ RegionTable.Refilled p.objs h.table t := by
  have hload := Place.load_cell hc href.load_lt
  by_cases hin : p.InSpace (b.load p.covered x)
  · obtain ⟨w, heq, hw⟩ := href.known hin
    have hne := InZones.ne_zero hin (lt_of_lt_of_le (by decide) hbase)
    have hstored : p.redirectAt b x = b.refer p.covered (p.forward w) := Plan.redirectAt_eq hin heq
    have hfits := href.redirectAt_lt hp hbase hx
    rw [if_pos hin, hstored]
    refine adjustCell_survives hload hne ((hs.isInSpace_iff hp).2 hin)
      (fun hweak => hsurvives hweak hin)
      (heq ▸ forward_runs hp hs hw) (fun hsame => ?_) (Place.store_cell hc hbase (hstored ▸ hfits))
    rw [← Place.eq_refer hbase hsame.symm]
  · rw [if_neg hin, Plan.redirectAt_of_not_inSpace hin]
    refine (adjustCell_outside hload (.inr
      (Bool.eq_false_iff.2 fun h => hin ((hs.isInSpace_iff hp).1 h)))).mono fun out h' => ?_
    rintro ⟨rfl, rfl⟩
    exact ⟨rfl, h'.table, rfl, .refl _ _⟩

/-! ## References at several places -/

/-- References at places that do not meet are redirected, and other places keep what they hold. -/
theorem adjustSlots_runs {h : Heap MemoryImage} {places : List Place} (hp : p.FitsMemory)
    (hs : p.Serves h) (hbacks : h.image.Backs p.covered)
    (hapart : places.Pairwise fun b b' => ¬b.Meets b')
    (hindex : ∀ b ∈ places, b.index < p.covered.words)
    (hrefers : ∀ b ∈ places, p.Refers b (h.image.value p.covered b)) :
    Runs (adjustSlots (places.map (Place.slot p.covered))) h fun _ h' => ∃ t image,
      h' = { h with table := t, image } ∧ RegionTable.Refilled p.objs h.table t
        ∧ image.Backs p.covered
        ∧ (∀ b ∈ places, image.value p.covered b = p.redirectAt b (h.image.value p.covered b))
        ∧ ∀ b, (∀ b' ∈ places, ¬b'.Meets b) →
          image.value p.covered b = h.image.value p.covered b := by
  induction places generalizing h with
  | nil => exact runs_pure.2 ⟨h.table, h.image, rfl, .refl _ _, hbacks, by simp, fun _ _ => rfl⟩
  | cons b rest ih =>
    have hb := hindex b List.mem_cons_self
    have href := hrefers b List.mem_cons_self
    obtain ⟨hfirst, hrest⟩ := List.pairwise_cons.1 hapart
    have hx : h.image.value p.covered b < b.values := Place.get_lt (hbacks.word_lt _ hb)
    have hy := href.redirectAt_lt hp.toValid hp.base_le hx
    have hread : ObjectModel.read h.image (b.slot p.covered)
        = b.cell h.image.codec (h.image.value p.covered b) :=
      MemoryImage.read_slot hbacks b
    rw [List.map_cons, adjustSlots]
    simp only [runs_bind, runs_get]
    rw [hread]
    refine (adjustCell_runs hp.toValid hp.base_le hs
      (fun hweak => absurd hweak (by decide)) hbacks.codec hx href).mono fun out h₁ => ?_
    rintro ⟨rfl, t, rfl, hrefilled⟩
    rw [runs_onImage_pure]
    show Runs (adjustSlots (rest.map (Place.slot p.covered))) { h with
      table := t
      image := h.image.write (b.slot p.covered)
        (b.cell h.image.codec (p.redirectAt b (h.image.value p.covered b))) } _
    -- The other places keep what they hold, so the induction applies to them.
    have hkeeps : ∀ b', ¬b.Meets b' → (h.image.write (b.slot p.covered)
        (b.cell h.image.codec (p.redirectAt b (h.image.value p.covered b)))).value p.covered b'
          = h.image.value p.covered b' :=
            fun b' hne => MemoryImage.value_write_of_not_meets hbacks hb _ hy hne
    have hself := MemoryImage.value_write_self hbacks hb h.image.codec hy
    have hwritten := hbacks.write hb h.image.codec hy
    generalize h.image.write (b.slot p.covered)
      (b.cell h.image.codec (p.redirectAt b (h.image.value p.covered b))) = image₁
        at hkeeps hself hwritten ⊢
    refine (ih (h := { h with table := t, image := image₁ })
      (hs.advance hrefilled.advances rfl rfl rfl hs.spaces) hwritten hrest
      (fun b' hb' => hindex b' (List.mem_cons_of_mem _ hb')) fun b' hb' => ?_).mono fun _ h₂ => ?_
    · rw [hkeeps b' (hfirst b' hb')]
      exact hrefers b' (List.mem_cons_of_mem _ hb')
    rintro ⟨t', image, rfl, hrefilled', hbacks', hdone, hother⟩
    refine ⟨t', image, rfl, hrefilled.trans hrefilled', hbacks', fun b' hb' => ?_, fun b' hb' => ?_⟩
    · rcases List.mem_cons.1 hb' with rfl | hin
      · rw [hother b' fun q hq hmeets => hfirst q hq hmeets.symm]
        exact hself
      · rw [hdone b' hin, hkeeps b' (hfirst b' hin)]
    · rw [hother b' fun q hq => hb' q (List.mem_cons_of_mem _ hq),
        hkeeps b' (hb' b List.mem_cons_self)]

/-- A metadata reference is redirected. -/
lemma forwardMetadata_runs (hp : p.Valid) (hs : p.Serves h) (hknown : p.Known a) :
    Runs (forwardMetadata a) h fun target h' => target = p.redirect a
      ∧ ∃ t, h' = { h with table := t } ∧ RegionTable.Refilled p.objs h.table t := by
  have hl := hs.liesOver hp
  rw [forwardMetadata]
  simp only [runs_bind, runs_get]
  by_cases hin : p.InSpace a
  · obtain ⟨w, rfl, hw⟩ := hknown hin
    obtain ⟨z, hz, h1, h2⟩ := hin
    obtain ⟨i, hi⟩ := List.mem_iff_getElem?.1 hz
    obtain ⟨s, hspace, hmatches⟩ := hs.exists_space hi
    have hof : h.spaceOf? (p.covered.addr w) = some i :=
      hl.spaceOf?_eq hi (by rw [hs.covered]; exact h1) (by rw [hs.covered]; exact h2)
    have hhas : z.Has p.regionWords w := ⟨by simpa using h1, by simpa using h2⟩
    rw [hof, Option.bind_some, hspace]
    dsimp only
    rw [Plan.redirect_addr ⟨z, hz, h1, h2⟩]
    by_cases hkeep : s.densePrefix ≤ p.covered.addr w
    · rw [if_pos hkeep]
      exact forward_runs hp hs hw
    · rw [if_neg hkeep, runs_pure]
      rw [hmatches.densePrefix, Extent.addr_le_addr, not_le] at hkeep
      refine ⟨?_, h.table, rfl, .refl _ _⟩
      rw [hp.forward_eq hz hhas, Zone.forward, if_pos hkeep]
  · rw [hl.spaceOf?_eq_none (by rw [hs.covered]; exact hin), Option.bind_none]
    dsimp only
    rw [runs_pure]
    exact ⟨(Plan.redirect_of_not_inSpace hin).symm, h.table, rfl, .refl _ _⟩

end Heap

/-! ## The references of an object -/

namespace Shape

variable {s : Shape} {header k : ℕ}

/-- The word of the first wide reference, from the start of the object. -/
def wideStart (s : Shape) : ℕ :=
  1 + s.metadata.toNat

/-- The word of the first narrow reference, from the start of the object. -/
def narrowStart (s : Shape) : ℕ :=
  s.wideStart + s.wide

/-- The places of the wide references and then of the narrow ones of an object at word `a`. -/
def places (s : Shape) (a : ℕ) : List Place :=
  (List.range s.wide).map (fun k => .word (a + s.wideStart + k))
    ++ (List.range s.narrow).map fun k => .half (2 * (a + s.narrowStart) + k)

/-- The place of the metadata reference, if there is one. -/
def metadataPlace? (s : Shape) (a : ℕ) : Option Place :=
  if s.metadata then some (.word (a + 1)) else none

/-- The places of all references. -/
def allPlaces (s : Shape) (a : ℕ) : List Place :=
  s.places a ++ (s.metadataPlace? a).toList

lemma fixedWords_eq (s : Shape) : s.fixedWords = s.narrowStart + (s.narrow + 1) / 2 := rfl

lemma fixedWords_le (s : Shape) : s.fixedWords ≤ s.totalWords :=
  Nat.le_add_right ..

lemma wideBase_addr (s : Shape) (e : Extent) (a : ℕ) :
    MemoryImage.wideBase s (e.addr a) = e.addr (a + s.wideStart) :=
  e.addr_add a s.wideStart

lemma narrowBase_addr (s : Shape) (e : Extent) (a : ℕ) :
    MemoryImage.narrowBase s (e.addr a) = e.addr (a + s.narrowStart) := by
  rw [MemoryImage.narrowBase, wideBase_addr, Extent.addr_add, Nat.add_assoc]
  rfl

lemma slotsOf_eq (s : Shape) (e : Extent) (a : ℕ) :
    MemoryImage.slotsOf s (e.addr a) = (s.places a).map (Place.slot e) := by
  rw [MemoryImage.slotsOf, places, List.map_append, List.map_map, List.map_map, wideBase_addr,
    narrowBase_addr]
  congr 1
  · refine List.map_congr_left fun k _ => ?_
    rw [Function.comp_apply, Extent.addr_add]
    rfl
  · refine List.map_congr_left fun k _ => ?_
    rw [Function.comp_apply, Place.slot, Extent.addr_eq]
    congr 1
    omega

lemma mem_places {b : Place} : b ∈ s.places a ↔ (∃ k < s.wide, b = .word (a + s.wideStart + k))
    ∨ ∃ k < s.narrow, b = .half (2 * (a + s.narrowStart) + k) := by
  simp only [places, List.mem_append, List.mem_map, List.mem_range, eq_comm]

/-- References lie behind the header and in front of the payload. -/
lemma index_of_mem_places {b : Place} (h : b ∈ s.places a) :
    a + s.wideStart ≤ b.index ∧ b.index < a + s.fixedWords := by
  have hfixed := s.fixedWords_eq
  rcases mem_places.1 h with ⟨k, hk, rfl⟩ | ⟨k, hk, rfl⟩
  · simp only [Place.index, narrowStart] at hfixed ⊢
    omega
  · simp only [Place.index, narrowStart] at hfixed ⊢
    omega

/-- Different references of an object do not meet. -/
lemma places_pairwise (s : Shape) (a : ℕ) : (s.places a).Pairwise fun b b' => ¬b.Meets b' := by
  rw [places, List.pairwise_append, List.pairwise_map, List.pairwise_map]
  refine ⟨List.pairwise_lt_range.imp fun {k l} hlt => ?_,
    List.pairwise_lt_range.imp fun {k l} hlt => ?_, fun b hb b' hb' => ?_⟩
  · show ¬a + s.wideStart + k = a + s.wideStart + l
    omega
  · show ¬2 * (a + s.narrowStart) + k = 2 * (a + s.narrowStart) + l
    omega
  · obtain ⟨k, hk, rfl⟩ := List.mem_map.1 hb
    obtain ⟨l, hl, rfl⟩ := List.mem_map.1 hb'
    rw [List.mem_range] at hk
    show ¬a + s.wideStart + k = (2 * (a + s.narrowStart) + l) / 2
    rw [narrowStart]
    omega

/-- A place in another word does not meet the references. -/
lemma not_meets_of_index {b b' : Place} (hne : b.index ≠ b'.index) : ¬b.Meets b' := by
  cases b <;> cases b'
  · exact hne
  · exact hne
  · exact hne
  · rintro rfl
    exact hne rfl

/-- What a header says about the shape. -/
lemma ofHeader_eq (h : ofHeader header = .ok s) : s.totalWords = header / sizeUnit
    ∧ s.metadata = decide (header / metadataFlag % 2 = 1) := by
  obtain ⟨payload, hsub, hpure⟩ := bind_eq_ok_iff.1 h
  obtain rfl := pure_eq_ok_iff.1 hpure
  obtain ⟨hle, rfl⟩ := Word.sub_eq_ok_iff.1 hsub
  exact ⟨Nat.add_sub_cancel' hle, rfl⟩

/-- Where the metadata reference of an object is. -/
lemma metadataSlot?_eq {image : MemoryImage} (h : ofHeader (image.word e a) = .ok s) :
    image.metadataSlot? (e.addr a) = (s.metadataPlace? a).map (Place.slot e) := by
  rw [MemoryImage.metadataSlot?, metadataPlace?, (ofHeader_eq h).2]
  change (if image.word e a / metadataFlag % 2 = 1 then _ else _) = _
  simp only [decide_eq_true_eq]
  split
  · rw [Option.map_some, Place.slot, ← e.addr_add a 1]
    rfl
  · rfl

end Shape

/-- Word `k` of an object of shape `s`, which is `v`, after its references have been redirected. -/
def Plan.redirectWord (p : Plan) (s : Shape) (k v : ℕ) : ℕ :=
  if k = 0 ∨ s.fixedWords ≤ k then v
  else if k < s.narrowStart then p.redirect v
  else
    let upper := if 2 * (k - s.narrowStart) + 1 < s.narrow
      then p.redirectAt (.half 1) (v / narrowValues) else v / narrowValues
    upper * narrowValues + p.redirectAt (.half 0) (v % narrowValues)

namespace Shape

variable {s : Shape} {before after : ℕ → ℕ} {k : ℕ}

lemma wideStart_pos (s : Shape) : 0 < s.wideStart :=
  Nat.lt_of_lt_of_le Nat.zero_lt_one (Nat.le_add_right ..)

lemma index_of_mem_allPlaces {b : Place} (h : b ∈ s.allPlaces a) :
    a < b.index ∧ b.index < a + s.fixedWords := by
  have hpos := s.wideStart_pos
  rcases List.mem_append.1 h with hin | hin
  · have := index_of_mem_places hin
    omega
  · rw [metadataPlace?] at hin
    split at hin
    case isTrue hmetadata =>
      obtain rfl : b = .word (a + 1) := by simpa using hin
      have hfixed := s.fixedWords_eq
      rw [narrowStart, wideStart, hmetadata, Bool.toNat_true] at hfixed
      exact ⟨Nat.lt_add_one a, by rw [Place.index]; omega⟩
    case isFalse => simp at hin

/-- Where an object is does not matter for where its references are in it. -/
lemma allPlaces_eq (s : Shape) (a : ℕ) : s.allPlaces a = (s.allPlaces 0).map (Place.behind a) := by
  rw [allPlaces, allPlaces, List.map_append, places, places, List.map_append, List.map_map,
    List.map_map]
  congr 1
  · congr 1
    · refine List.map_congr_left fun k _ => ?_
      simp only [Function.comp_apply, Place.behind]
      congr 1
      omega
    · refine List.map_congr_left fun k _ => ?_
      simp only [Function.comp_apply, Place.behind]
      congr 1
      omega
  · rw [metadataPlace?, metadataPlace?]
    split
    · rfl
    · rfl

/-- A word in front of the narrow references, but behind the header, is all of a reference. -/
lemma word_mem_allPlaces (hpos : 0 < k) (hlt : k < s.narrowStart) :
    .word (a + k) ∈ s.allPlaces a := by
  refine List.mem_append.2 ?_
  by_cases hwide : s.wideStart ≤ k
  · rw [narrowStart] at hlt
    exact Or.inl (mem_places.2 (Or.inl ⟨k - s.wideStart, by omega, by congr 1; omega⟩))
  · rw [wideStart] at hwide
    cases hmetadata : s.metadata with
    | false =>
      rw [hmetadata, Bool.toNat_false] at hwide
      omega
    | true =>
      rw [hmetadata, Bool.toNat_true] at hwide
      obtain rfl : k = 1 := by omega
      exact Or.inr (by simp [metadataPlace?, hmetadata])

/-- Redirecting what the places of an object hold redirects its words. -/
lemma word_redirected
    (hdone : ∀ b ∈ s.allPlaces a,
      b.get (after b.index) = p.redirectAt b (b.get (before b.index)))
    (hkept : ∀ b, (∀ b' ∈ s.allPlaces a, ¬b'.Meets b) →
      b.get (after b.index) = b.get (before b.index)) (k : ℕ) :
    after (a + k) = p.redirectWord s k (before (a + k)) := by
  have hfixed := s.fixedWords_eq
  rw [Plan.redirectWord]
  by_cases hout : k = 0 ∨ s.fixedWords ≤ k
  · rw [if_pos hout]
    refine hkept (.word (a + k)) fun b' hb' => not_meets_of_index ?_
    have := index_of_mem_allPlaces hb'
    show b'.index ≠ a + k
    omega
  rw [if_neg hout]
  by_cases hnarrow : k < s.narrowStart
  · rw [if_pos hnarrow]
    exact hdone (.word (a + k)) (word_mem_allPlaces
      (Nat.pos_of_ne_zero fun h => hout (Or.inl h)) hnarrow)
  rw [if_neg hnarrow]
  -- A word of narrow references is redirected half by half.
  have hlower := hdone (.half (2 * (a + s.narrowStart) + 2 * (k - s.narrowStart)))
    (List.mem_append_left _ (mem_places.2 (Or.inr ⟨2 * (k - s.narrowStart), by omega, rfl⟩)))
  have hupper : after (a + k) / narrowValues = if 2 * (k - s.narrowStart) + 1 < s.narrow
      then p.redirectAt (.half 1) (before (a + k) / narrowValues)
        else before (a + k) / narrowValues := by
    have hindex : (2 * (a + s.narrowStart) + (2 * (k - s.narrowStart) + 1)) / 2 = a + k := by omega
    split
    case isTrue hlt =>
      have hval := hdone (.half (2 * (a + s.narrowStart) + (2 * (k - s.narrowStart) + 1)))
        (List.mem_append_left _ (mem_places.2 (Or.inr ⟨_, hlt, rfl⟩)))
      rw [Place.index, hindex, Place.get, Place.get, if_pos (by omega), if_pos (by omega)] at hval
      exact hval
    case isFalse hlt =>
      have hval := hkept (.half (2 * (a + s.narrowStart) + (2 * (k - s.narrowStart) + 1)))
        fun b' hb' hmeets => ?_
      · rw [Place.index, hindex, Place.get, Place.get, if_pos (by omega), if_pos (by omega)] at hval
        exact hval
      · rcases List.mem_append.1 hb' with hin | hin
        · rcases mem_places.1 hin with ⟨l, hl, rfl⟩ | ⟨l, hl, rfl⟩
          · have heq : a + s.wideStart + l = a + k := hmeets.trans hindex
            rw [narrowStart] at hnarrow
            omega
          · have heq : 2 * (a + s.narrowStart) + l
                = 2 * (a + s.narrowStart) + (2 * (k - s.narrowStart) + 1) := hmeets
            omega
        · rw [metadataPlace?] at hin
          split at hin
          case isTrue hmetadata =>
            obtain rfl : b' = .word (a + 1) := by simpa using hin
            have heq : a + 1 = a + k := hmeets.trans hindex
            rw [narrowStart, wideStart, hmetadata, Bool.toNat_true] at hnarrow
            omega
          case isFalse => simp at hin
  have hindex : (2 * (a + s.narrowStart) + 2 * (k - s.narrowStart)) / 2 = a + k := by omega
  rw [Place.index, hindex, Place.get, Place.get, if_neg (by omega), if_neg (by omega)] at hlower
  have hsplit := Nat.div_add_mod (after (a + k)) narrowValues
  rw [hupper, hlower] at hsplit
  rw [← hsplit, Nat.mul_comm]
  rfl

end Shape

namespace Shape

variable {s : Shape}

/-- Where the metadata reference is, and that the other references do not meet it. -/
lemma eq_of_metadataPlace? {b : Place} (h : s.metadataPlace? a = some b) :
    b = .word (a + 1) ∧ ∀ b' ∈ s.places a, ¬b'.Meets b := by
  rw [metadataPlace?] at h
  split at h
  case isTrue hmetadata =>
    obtain rfl : .word (a + 1) = b := by simpa using h
    refine ⟨rfl, fun b' hb' => not_meets_of_index ?_⟩
    have := index_of_mem_places hb'
    rw [wideStart, hmetadata, Bool.toNat_true] at this
    rw [show (Place.word (a + 1)).index = a + 1 from rfl]
    omega
  case isFalse => cases h

/-- Once the references of an object have been redirected, its words have, and all other words are
kept. -/
lemma redirects_words {image image' : MemoryImage}
    (hdone : ∀ b ∈ s.allPlaces a,
      image'.value p.covered b = p.redirectAt b (image.value p.covered b))
    (hkept : ∀ b, (∀ b' ∈ s.allPlaces a, ¬b'.Meets b) →
      image'.value p.covered b = image.value p.covered b) :
    (∀ k, image'.word p.covered (a + k) = p.redirectWord s k (image.word p.covered (a + k)))
      ∧ ∀ x, ¬(a ≤ x ∧ x < a + s.totalWords) →
        image'.word p.covered x = image.word p.covered x := by
  have hfixed := s.fixedWords_le
  refine ⟨word_redirected hdone hkept,
    fun x hx => hkept (.word x) fun b' hb' => not_meets_of_index ?_⟩
  have := index_of_mem_allPlaces hb'
  show b'.index ≠ x
  omega

end Shape

namespace Heap

variable {h : Heap MemoryImage} {s : Shape}

/-- A metadata reference is redirected where it is, and other places keep what they hold. -/
lemma adjustMetadata_runs (hp : p.FitsMemory) (hs : p.Serves h) (hbacks : h.image.Backs p.covered)
    (hw : w < p.covered.words) (href : p.Refers (.word w) (h.image.value p.covered (.word w))) :
    Runs (do
      let metadata ← check (ObjectModel.read h.image (Place.slot p.covered (.word w))).load
      if metadata ≠ 0 then
        let target ← forwardMetadata metadata
        let cell ← check ((ObjectModel.read h.image (Place.slot p.covered (.word w))).store target)
        onImage fun image => pure (ObjectModel.write image (Place.slot p.covered (.word w)) cell)) h
          fun _ h' => ∃ t image,
      h' = { h with table := t, image } ∧ RegionTable.Refilled p.objs h.table t
        ∧ image.Backs p.covered
        ∧ image.value p.covered (.word w) = p.redirect (h.image.value p.covered (.word w))
        ∧ ∀ b, ¬(Place.word w).Meets b → image.value p.covered b = h.image.value p.covered b := by
  have hread : ObjectModel.read h.image (Place.slot p.covered (.word w))
      = .wide (h.image.value p.covered (.word w)) :=
    MemoryImage.read_slot hbacks _
  rw [hread, runs_bind]
  refine runs_check.2 ⟨_, rfl, ?_⟩
  by_cases h0 : h.image.value p.covered (.word w) = 0
  · rw [if_neg (not_not.2 h0), runs_pure]
    exact ⟨h.table, h.image, rfl, .refl _ _, hbacks, by rw [h0, hp.redirect_zero], fun _ _ => rfl⟩
  · rw [if_pos h0, runs_bind]
    refine (forwardMetadata_runs hp.toValid hs href.known).mono fun target h₁ => ?_
    rintro ⟨rfl, t, rfl, hrefilled⟩
    have hlt : p.redirect (h.image.value p.covered (.word w)) < wordValues :=
      href.redirectAt_lt (b := .word w) hp.toValid hp.base_le (hbacks.word_lt _ hw)
    rw [runs_bind]
    refine runs_check.2 ⟨_, rfl, ?_⟩
    rw [runs_onImage_pure]
    refine ⟨t, _, rfl, hrefilled, hbacks.write (a := .word w) hw h.image.codec hlt, ?_,
      fun b hne => ?_⟩
    · exact MemoryImage.value_write_self (a := .word w) hbacks hw h.image.codec hlt
    · exact MemoryImage.value_write_of_not_meets (a := .word w) hbacks hw h.image.codec hlt hne

/-- The references of an object are redirected and nothing else changes, wherever the object is. -/
theorem updateContents_runs (hp : p.FitsMemory) (hs : p.Serves h) (hbacks : h.image.Backs p.covered)
    (hshape : Shape.ofHeader (h.image.word p.covered a) = .ok s)
    (hfits : a + s.totalWords ≤ p.covered.words)
    (hrefers : ∀ b ∈ s.allPlaces a, p.Refers b (h.image.value p.covered b)) :
    Runs (updateContents (p.covered.addr a)) h fun _ h' => ∃ t image,
      h' = { h with table := t, image, updates := (p.covered.addr a, h.image) :: h.updates }
        ∧ RegionTable.Refilled p.objs h.table t ∧ image.Backs p.covered
        ∧ (∀ k, image.word p.covered (a + k) = p.redirectWord s k (h.image.word p.covered (a + k)))
        ∧ ∀ x, ¬(a ≤ x ∧ x < a + s.totalWords) →
          image.word p.covered x = h.image.word p.covered x := by
  have hfixed := s.fixedWords_le
  have hslots : ObjectModel.slots h.image (p.covered.addr a)
      = .ok ((s.places a).map (Place.slot p.covered)) := by
    show (h.image.shapeAt (p.covered.addr a)
      >>= fun s => pure (MemoryImage.slotsOf s (p.covered.addr a))) = _
    rw [← Shape.slotsOf_eq]
    exact congrArg (· >>= fun s => pure (MemoryImage.slotsOf s (p.covered.addr a))) hshape
  have hindex : ∀ b ∈ s.allPlaces a, b.index < p.covered.words := fun b hb => by
    have := Shape.index_of_mem_allPlaces hb
    omega
  rw [updateContents]
  simp only [runs_bind, runs_modify, runs_get, hslots, runs_check_ok]
  refine (adjustSlots_runs (h := { h with updates := (p.covered.addr a, h.image) :: h.updates }) hp
    (hs.advance (.refl _ _) rfl rfl rfl hs.spaces) hbacks (s.places_pairwise a)
    (fun b hb => hindex b (List.mem_append_left _ hb)) fun b hb =>
      hrefers b (List.mem_append_left _ hb)).mono fun _ h₁ => ?_
  rintro ⟨t, image, rfl, hrefilled, hbacks₁, hdone, hkept⟩
  have hheader : image.word p.covered a = h.image.word p.covered a := hkept (.word a) fun b hb =>
    Shape.not_meets_of_index
      (by have := Shape.index_of_mem_places hb; have := s.wideStart_pos; show b.index ≠ a; omega)
  have hslot : ObjectModel.metadataSlot image (p.covered.addr a)
      = (s.metadataPlace? a).map (Place.slot p.covered) :=
    Shape.metadataSlot?_eq (by rw [hheader]; exact hshape)
  dsimp only
  rw [hslot]
  cases hplace : s.metadataPlace? a with
  | none =>
    have hall : s.allPlaces a = s.places a := by
      rw [Shape.allPlaces, hplace]; exact List.append_nil _
    exact runs_pure.2 ⟨t, image, rfl, hrefilled, hbacks₁,
      Shape.redirects_words (hall ▸ hdone) (hall ▸ hkept)⟩
  | some b =>
    have hmem : b ∈ s.allPlaces a := List.mem_append_right _ (by simp [hplace])
    obtain ⟨rfl, hapart⟩ := Shape.eq_of_metadataPlace? hplace
    have hvalue : image.value p.covered (.word (a + 1)) = h.image.value p.covered (.word (a + 1)) :=
      hkept _ hapart
    -- The metadata reference is the only one left.
    refine (adjustMetadata_runs (w := a + 1) (h := { h with
      table := t, image
      updates := (p.covered.addr a, h.image) :: h.updates }) hp
      (hs.advance hrefilled.advances rfl rfl rfl hs.spaces) hbacks₁ (hindex _ hmem)
      (hvalue ▸ hrefers _ hmem)).mono fun _ h₂ => ?_
    rintro ⟨t', image', rfl, hrefilled', hbacks', hself, hother⟩
    refine ⟨t', image', rfl, hrefilled.trans hrefilled', hbacks',
      Shape.redirects_words (fun b hb => ?_) fun b hb => ?_⟩
    · rcases List.mem_append.1 hb with hin | hin
      · rw [hother b fun hmeets => hapart b hin hmeets.symm]
        exact hdone b hin
      · obtain rfl : b = .word (a + 1) := by simpa [hplace] using hin
        exact hself.trans (congrArg p.redirect hvalue)
    · rw [hother b (hb _ hmem)]
      exact hkept b fun b' hb' => hb b' (List.mem_append_left _ hb')

end Heap

end MarkCompact
