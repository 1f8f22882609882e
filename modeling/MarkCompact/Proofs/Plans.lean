import MarkCompact.Proofs.Boundaries

/-!
# Plans of several spaces

A `Plan` is what a cycle has decided before it copies anything: the objects that are live, the zones
of the spaces and the contents of memory.  `Plan.forward` sends every live word to its place, zone
by zone, and keeps other words.

Main statements: `Plan.forward_injective` (different live words go to different words),
`Plan.forward_add` (objects stay whole), `Zone.exists_live_packed` (every word of the packed part of
a zone is the place of a live word) and `Heap.spaceOf?_eq` (the space of an address is that of its
zone).
-/

namespace MarkCompact

variable {objs : List Span} {o : Span} {W k n w x y : ℕ} {z z' : Zone}

namespace Zone

/-- Word `w` lies in the zone, below its top or not. -/
def Has (z : Zone) (W w : ℕ) : Prop :=
  z.first * W ≤ w ∧ w < z.last * W

instance (z : Zone) (W w : ℕ) : Decidable (z.Has W w) :=
  inferInstanceAs (Decidable (_ ∧ _))

/-- The zones have no region in common. -/
def Apart (z z' : Zone) : Prop :=
  z.last ≤ z'.first ∨ z'.last ≤ z.first

instance : Std.Symm Apart := ⟨fun _ _ => Or.symm⟩

/-- Zones with different numbers are apart. -/
lemma apart_of_ne {zones : List Zone} {i j : ℕ} (hapart : zones.Pairwise Zone.Apart)
    (hz : zones[i]? = some z) (hz' : zones[j]? = some z') (hne : i ≠ j) : z.Apart z' := by
  obtain ⟨hi, rfl⟩ := List.getElem?_eq_some_iff.1 hz
  obtain ⟨hj, rfl⟩ := List.getElem?_eq_some_iff.1 hz'
  rcases Nat.lt_or_gt_of_ne hne with hlt | hlt
  · exact List.pairwise_iff_getElem.1 hapart i j hi hj hlt
  · exact (List.pairwise_iff_getElem.1 hapart j i hj hi hlt).symm

/-- The first word above the objects once compaction has finished. -/
def newTop (z : Zone) (W : ℕ) (objs : List Span) : ℕ :=
  z.packed W objs z.top

lemma Holds.has {words : ℕ} (h : z.Holds W o) (hz : z.Ordered W words) (hw : o.Covers w) :
    z.Has W w := by
  have hlast := hz.top_le_last
  obtain ⟨h1, h2⟩ := h
  obtain ⟨h3, h4⟩ := hw
  exact ⟨by omega, by omega⟩

/-- Every word of the packed part is the place of a live word. -/
lemma exists_live_packed (h1 : z.keep * W ≤ y) (h2 : y < z.packed W objs x) :
    ∃ w, z.keep * W ≤ w ∧ w < x ∧ Live objs w ∧ z.packed W objs w = y := by
  induction x with
  | zero =>
    have hle := liveBelow_mono objs (Nat.zero_le (z.keep * W))
    rw [packed] at h2
    omega
  | succ x ih =>
    by_cases hlt : y < z.packed W objs x
    · obtain ⟨w, hw1, hw2, hw3, hw4⟩ := ih hlt
      exact ⟨w, hw1, by omega, hw3, hw4⟩
    · have hstep := liveBelow_succ objs x
      rw [packed] at h2 hlt
      by_cases hlive : Live objs x
      · rw [if_pos hlive] at hstep
        have hkeep : z.keep * W ≤ x := by
          by_contra hgt
          have hle := liveBelow_mono objs (show x + 1 ≤ z.keep * W by omega)
          omega
        exact ⟨x, hkeep, Nat.lt_succ_self x, hlive, by rw [packed]; omega⟩
      · rw [if_neg hlive] at hstep
        omega

/-- Where the plan does not grow, nothing is live. -/
lemma dead_of_packed_eq (hx : z.keep * W ≤ x) (h : z.packed W objs y = z.packed W objs x)
    (hw1 : x ≤ w) (hw2 : w < y) : ¬Live objs w := by
  intro hlive
  have hlow := z.packed_mono W objs hw1
  have hlt := z.packed_lt (le_trans hx hw1) hlive (Nat.lt_add_one w)
  have hhigh := z.packed_mono W objs (show w + 1 ≤ y by omega)
  omega

lemma Ordered.newTop_le {words : ℕ} (hz : z.Ordered W words) (objs : List Span) :
    z.newTop W objs ≤ z.top :=
  packed_le hz.keep_le_top

lemma Ordered.has_of_le {words : ℕ} (hz : z.Ordered W words) (h1 : z.first * W ≤ w)
    (h2 : w < z.top) : z.Has W w :=
  ⟨h1, lt_of_lt_of_le h2 hz.top_le_last⟩

/-- A live word of the zone goes to a word below the new top, or stays in the prefix. -/
lemma forward_lt_newTop (h : w < z.top) (hw : Live objs w) (hkeep : z.keep * W ≤ w) :
    z.forward W objs w < z.newTop W objs := by
  rw [forward, if_neg (not_lt.2 hkeep), newTop]
  exact packed_lt hkeep hw h

end Zone

/-- What is to happen to the live words of all spaces. -/
structure Plan where
  covered : Extent
  geometry : Geometry
  /-- The objects, those that close dense prefixes included. -/
  objs : List Span
  zones : List Zone
  /-- The words of memory before compaction. -/
  memory : ℕ → ℕ

namespace Plan

/-- The words of a region. -/
def regionWords (p : Plan) : ℕ :=
  p.geometry.regionWords

/-- The zone of a word. -/
def zoneOf? (p : Plan) (w : ℕ) : Option Zone :=
  p.zones.find? fun z => z.Has p.regionWords w

/-- Where a live word goes. -/
def forward (p : Plan) (w : ℕ) : ℕ :=
  match p.zoneOf? w with
  | some z => z.forward p.regionWords p.objs w
  | none => w

/-- The objects and the zones fit together. -/
structure Valid (p : Plan) : Prop where
  separate : Separate p.objs
  ordered : ∀ z ∈ p.zones, z.Ordered p.regionWords p.covered.words
  apart : p.zones.Pairwise Zone.Apart
  holds : ∀ o ∈ p.objs, ∃ z ∈ p.zones, z.Holds p.regionWords o

/-- The covered range can be memory of self-describing objects. -/
structure FitsMemory (p : Plan) : Prop extends p.Valid where
  /-- Narrow references count from the word in front of the range. -/
  base_le : bytesPerWord ≤ p.covered.start
  /-- The size of a filler fits its header. -/
  words_lt : p.covered.words < sizeLimit

variable {p : Plan}

lemma regionWords_pos (p : Plan) : 0 < p.regionWords :=
  p.geometry.regionWords_pos

namespace Valid

/-- Zones that share a word are the same. -/
lemma eq_of_has (h : p.Valid) (hz : z ∈ p.zones) (hz' : z' ∈ p.zones) (hw : z.Has p.regionWords w)
    (hw' : z'.Has p.regionWords w) : z = z' := by
  by_contra hne
  have hle := fun (z z' : Zone) (hle : z.last ≤ z'.first) => Nat.mul_le_mul_right p.regionWords hle
  obtain ⟨h1, h2⟩ := hw
  obtain ⟨h3, h4⟩ := hw'
  rcases h.apart.forall hz hz' hne with hap | hap
  · have := hle z z' hap
    omega
  · have := hle z' z hap
    omega

/-- Zones with different numbers share no word. -/
lemma index_eq {i j : ℕ} (h : p.Valid) (hz : p.zones[i]? = some z) (hz' : p.zones[j]? = some z')
    (hw : z.Has p.regionWords w) (hw' : z'.Has p.regionWords w) : i = j := by
  obtain ⟨h1, h2⟩ := hw
  obtain ⟨h3, h4⟩ := hw'
  by_contra hne
  rcases Zone.apart_of_ne h.apart hz hz' hne with hle | hle
  · have := Nat.mul_le_mul_right p.regionWords hle
    omega
  · have := Nat.mul_le_mul_right p.regionWords hle
    omega

lemma zoneOf?_eq (h : p.Valid) (hz : z ∈ p.zones) (hw : z.Has p.regionWords w) :
    p.zoneOf? w = some z := by
  cases hfound : p.zoneOf? w with
  | none => exact absurd hw (by simpa using List.find?_eq_none.1 hfound z hz)
  | some z' =>
    have hw' : z'.Has p.regionWords w := by simpa using List.find?_some hfound
    rw [h.eq_of_has hz (List.mem_of_find?_eq_some hfound) hw hw']

/-- In a zone the plan is that of the zone. -/
lemma forward_eq (h : p.Valid) (hz : z ∈ p.zones) (hw : z.Has p.regionWords w) :
    p.forward w = z.forward p.regionWords p.objs w := by
  rw [forward, h.zoneOf?_eq hz hw]

/-- A live word lies in the zone of its object. -/
lemma exists_zone (h : p.Valid) (hw : Live p.objs w) :
    ∃ z ∈ p.zones, z.Has p.regionWords w ∧ w < z.top := by
  obtain ⟨o, ho, hcov⟩ := hw
  obtain ⟨z, hz, hholds⟩ := h.holds o ho
  exact ⟨z, hz, hholds.has (h.ordered z hz) hcov, lt_of_lt_of_le hcov.2 hholds.2⟩

lemma bounds (h : p.Valid) (hz : z ∈ p.zones) : z.Bounds p.regionWords p.objs := by
  intro o ho
  obtain ⟨z', hz', hholds⟩ := h.holds o ho
  by_cases heq : z = z'
  · exact Or.inl (heq ▸ hholds)
  · right
    have hlast := (h.ordered z' hz').top_le_last
    obtain ⟨h1, h2⟩ := hholds
    rcases h.apart.forall hz hz' heq with hap | hap
    · have := Nat.mul_le_mul_right p.regionWords hap
      exact Or.inr (by omega)
    · have := Nat.mul_le_mul_right p.regionWords hap
      exact Or.inl (by omega)

lemma top_of_live (h : p.Valid) (hz : z ∈ p.zones) (hw : Live p.objs w)
    (hhas : z.Has p.regionWords w) : w < z.top :=
  (h.bounds hz).mem_top_of_live hw hhas.2 (h.ordered z hz)

/-- The place of a live word lies in the zone of the word. -/
lemma has_forward (h : p.Valid) (hz : z ∈ p.zones) (hhas : z.Has p.regionWords w) :
    z.Has p.regionWords (p.forward w) := by
  rw [h.forward_eq hz hhas]
  have hle := z.forward_le p.regionWords p.objs w
  have hfirst := Nat.mul_le_mul_right p.regionWords (h.ordered z hz).first_le_keep
  obtain ⟨h1, h2⟩ := hhas
  refine ⟨?_, by omega⟩
  rw [Zone.forward]
  split
  · exact h1
  · exact le_trans hfirst (z.le_packed ..)

lemma forward_le (h : p.Valid) (hw : Live p.objs w) : p.forward w ≤ w := by
  obtain ⟨z, hz, hhas, _⟩ := h.exists_zone hw
  rw [h.forward_eq hz hhas]
  exact z.forward_le ..

/-- Different live words go to different words. -/
theorem forward_injective (h : p.Valid) (hx : Live p.objs x) (hy : Live p.objs y)
    (heq : p.forward x = p.forward y) :
    x = y := by
  obtain ⟨z, hz, hhas, _⟩ := h.exists_zone hx
  obtain ⟨z', hz', hhas', _⟩ := h.exists_zone hy
  have hsame : z = z' := h.eq_of_has hz hz' (h.has_forward hz hhas) (heq ▸ h.has_forward hz' hhas')
  subst hsame
  rw [h.forward_eq hz hhas, h.forward_eq hz hhas'] at heq
  by_contra hne
  rcases Nat.lt_or_gt_of_ne hne with hlt | hlt
  · exact absurd heq (ne_of_lt (z.forward_lt hx hlt))
  · exact absurd heq (ne_of_gt (z.forward_lt hy hlt))

lemma has_of_mem (h : p.Valid) (hz : z ∈ p.zones) (ho : o ∈ p.objs) (hcov : o.Covers w)
    (hhas : z.Has p.regionWords w) :
    z.Holds p.regionWords o := by
  obtain ⟨z', hz', hholds⟩ := h.holds o ho
  rw [h.eq_of_has hz hz' hhas (hholds.has (h.ordered z' hz') hcov)]
  exact hholds

/-- The words of an object stay together. -/
theorem forward_add (h : p.Valid) (ho : o ∈ p.objs) (hk : k < o.words) :
    p.forward (o.start + k) = p.forward o.start + k := by
  obtain ⟨z, hz, hholds⟩ := h.holds o ho
  have hhas : ∀ k, k < o.words → z.Has p.regionWords (o.start + k) := fun k hk =>
    hholds.has (h.ordered z hz) ⟨Nat.le_add_right .., by simp only [Span.past]; omega⟩
  have hstart := hhas 0 (by omega)
  rw [Nat.add_zero] at hstart
  rw [h.forward_eq hz (hhas k hk), h.forward_eq hz hstart, z.forward_add _ ho hk]

/-- From any word of an object on, its words stay together. -/
lemma forward_add_of_mem (h : p.Valid) (ho : o ∈ p.objs) (h1 : o.start ≤ x) (h2 : x + k < o.past) :
    p.forward (x + k) = p.forward x + k := by
  rw [Span.past] at h2
  have hwhole := h.forward_add ho (show x - o.start + k < o.words by omega)
  have hpart := h.forward_add ho (show x - o.start < o.words by omega)
  rw [show o.start + (x - o.start + k) = x + k by omega] at hwhole
  rw [show o.start + (x - o.start) = x by omega] at hpart
  omega

/-- Objects whose places share a word are the same. -/
lemma eq_of_place {o' : Span} (h : p.Valid) (ho : o ∈ p.objs) (ho' : o' ∈ p.objs)
    (h1 : p.forward o.start ≤ y) (h2 : y < p.forward o.start + o.words)
    (h1' : p.forward o'.start ≤ y) (h2' : y < p.forward o'.start + o'.words) : o = o' := by
  have hplace := h.forward_add ho (show y - p.forward o.start < o.words by omega)
  have hplace' := h.forward_add ho' (show y - p.forward o'.start < o'.words by omega)
  have hcov := Span.covers_add (show y - p.forward o.start < o.words by omega)
  have hcov' := Span.covers_add (show y - p.forward o'.start < o'.words by omega)
  have heq := h.forward_injective (live_of_mem ho hcov) (live_of_mem ho' hcov') (by omega)
  exact h.separate.eq_of_covers ho ho' hcov (heq ▸ hcov')

end Valid

end Plan

/-! ## The spaces of zones -/

/-- The address lies in one of the zones. -/
def InZones (e : Extent) (W : ℕ) (zones : List Zone) (a : ℕ) : Prop :=
  ∃ z ∈ zones, e.addr (z.first * W) ≤ a ∧ a < e.addr (z.last * W)

instance (e : Extent) (W : ℕ) (zones : List Zone) (a : ℕ) : Decidable (InZones e W zones a) :=
  inferInstanceAs (Decidable (∃ z ∈ zones, _))

lemma InZones.ne_zero {e : Extent} {zones : List Zone} {a : ℕ} (h : InZones e W zones a)
    (he : 0 < e.start) : a ≠ 0 := by
  obtain ⟨z, _, h1, _⟩ := h
  rw [Extent.addr_eq] at h1
  omega

/-- The spaces have no address in common. -/
def Space.Apart (s s' : Space) : Prop :=
  s.limit ≤ s'.bottom ∨ s'.limit ≤ s.bottom

instance : Std.Symm Space.Apart := ⟨fun _ _ => Or.symm⟩

namespace Heap

variable {μ : Type} {h : Heap μ} {zones : List Zone} {a i : ℕ} {s : Space}

/-- The spaces of the heap lie over the zones, one each. -/
structure LiesOver (h : Heap μ) (W : ℕ) (zones : List Zone) : Prop where
  spaces_over : List.Forall₂ (fun s z => s.Over h.covered W z) h.spaces zones
  ordered : ∀ z ∈ zones, z.Ordered W h.covered.words
  apart : zones.Pairwise Zone.Apart

namespace LiesOver

lemma length_eq (hl : h.LiesOver W zones) : h.spaces.length = zones.length :=
  hl.spaces_over.length_eq

lemma exists_space (hl : h.LiesOver W zones) (hz : zones[i]? = some z) :
    ∃ s, h.spaces[i]? = some s ∧ s.Over h.covered W z := by
  obtain ⟨hi, rfl⟩ := List.getElem?_eq_some_iff.1 hz
  have hi' : i < h.spaces.length := hl.length_eq ▸ hi
  exact ⟨h.spaces[i], List.getElem?_eq_getElem hi', hl.spaces_over.get hi' hi⟩

lemma exists_zone (hl : h.LiesOver W zones) (hs : h.spaces[i]? = some s) :
    ∃ z, zones[i]? = some z ∧ s.Over h.covered W z := by
  obtain ⟨hi, rfl⟩ := List.getElem?_eq_some_iff.1 hs
  have hi' : i < zones.length := hl.length_eq ▸ hi
  exact ⟨zones[i], List.getElem?_eq_getElem hi', hl.spaces_over.get hi hi'⟩

/-- Spaces over zones that are apart are apart. -/
lemma spaces_apart (hl : h.LiesOver W zones) : h.spaces.Pairwise Space.Apart := by
  refine List.pairwise_iff_getElem.2 fun i j hi hj hij => ?_
  obtain ⟨z, hz, hover⟩ := hl.exists_zone (List.getElem?_eq_getElem hi)
  obtain ⟨z', hz', hover'⟩ := hl.exists_zone (List.getElem?_eq_getElem hj)
  obtain ⟨hi', rfl⟩ := List.getElem?_eq_some_iff.1 hz
  obtain ⟨hj', rfl⟩ := List.getElem?_eq_some_iff.1 hz'
  rw [Space.Apart, hover.limit, hover.bottom, hover'.limit, hover'.bottom, Extent.addr_le_addr,
    Extent.addr_le_addr]
  exact (List.pairwise_iff_getElem.1 hl.apart i j hi' hj' hij).imp (Nat.mul_le_mul_right W)
    (Nat.mul_le_mul_right W)

/-- A space contains the addresses of its zone. -/
lemma contains_iff (hl : h.LiesOver W zones) (hs : h.spaces[i]? = some s)
    (hz : zones[i]? = some z) :
    s.contains a = true ↔ h.covered.addr (z.first * W) ≤ a ∧ a < h.covered.addr (z.last * W) := by
  obtain ⟨z', hz', hover⟩ := hl.exists_zone hs
  obtain rfl : z = z' := Option.some.inj (hz.symm.trans hz')
  rw [Space.contains, hover.bottom, hover.limit, Bool.and_eq_true, decide_eq_true_iff,
    decide_eq_true_iff]

lemma isIn_of_bounds (hl : h.LiesOver W zones) (hz : z ∈ zones)
    (h1 : h.covered.addr (z.first * W) ≤ a) (h2 : a < h.covered.addr (z.last * W)) :
    h.isIn a = true := by
  have hwords := (hl.ordered z hz).last_le
  have hsize : 8 * h.covered.words ≤ h.covered.size := by
    rw [Extent.words, bytesPerWord]
    omega
  rw [Extent.addr_eq] at h1 h2
  rw [isIn, Bool.and_eq_true, decide_eq_true_iff, decide_eq_true_iff]
  omega

/-- The space of an address is that of its zone. -/
theorem spaceOf?_eq (hl : h.LiesOver W zones) (hz : zones[i]? = some z)
    (h1 : h.covered.addr (z.first * W) ≤ a) (h2 : a < h.covered.addr (z.last * W)) :
    h.spaceOf? a = some i := by
  obtain ⟨s, hs, _⟩ := hl.exists_space hz
  obtain ⟨hi, hspace⟩ := List.getElem?_eq_some_iff.1 hs
  rw [spaceOf?, if_pos (hl.isIn_of_bounds (List.mem_of_getElem? hz) h1 h2),
    List.findIdx?_eq_some_iff_getElem]
  refine ⟨hi, ?_, fun j hj => ?_⟩
  · rw [hspace]
    exact (hl.contains_iff hs hz).2 ⟨h1, h2⟩
  · -- An earlier space has no address with this one in common.
    intro hcontains
    have hj' : j < zones.length := hl.length_eq ▸ lt_trans hj hi
    have hzj := List.getElem?_eq_getElem hj'
    obtain ⟨h3, h4⟩ := (hl.contains_iff (List.getElem?_eq_getElem (lt_trans hj hi)) hzj).1 hcontains
    obtain ⟨hiz, rfl⟩ := List.getElem?_eq_some_iff.1 hz
    have hle := fun {x y : ℕ} (hxy : x ≤ y) => Nat.mul_le_mul_right W hxy
    simp only [Extent.addr_eq] at h1 h2 h3 h4
    rcases List.pairwise_iff_getElem.1 hl.apart j i hj' hiz hj with hap | hap
    · have := hle hap
      omega
    · have := hle hap
      omega

lemma spaceOf?_eq_none (hl : h.LiesOver W zones) (ha : ¬InZones h.covered W zones a) :
    h.spaceOf? a = none := by
  rw [spaceOf?]
  split
  · rw [List.findIdx?_eq_none_iff]
    intro s hs
    obtain ⟨i, hi⟩ := List.mem_iff_getElem?.1 hs
    obtain ⟨z, hz, _⟩ := hl.exists_zone hi
    rw [← Bool.not_eq_true, hl.contains_iff hi hz]
    exact fun hin => ha ⟨z, List.mem_of_getElem? hz, hin⟩
  · rfl

lemma isInSpace_iff (hl : h.LiesOver W zones) :
    h.isInSpace a = true ↔ InZones h.covered W zones a := by
  constructor
  · intro hin
    by_contra ha
    rw [isInSpace, hl.spaceOf?_eq_none ha] at hin
    exact absurd hin Bool.false_ne_true
  · rintro ⟨z, hz, h1, h2⟩
    obtain ⟨i, hi⟩ := List.mem_iff_getElem?.1 hz
    rw [isInSpace, hl.spaceOf?_eq hi h1 h2]
    rfl

end LiesOver

end Heap

end MarkCompact
