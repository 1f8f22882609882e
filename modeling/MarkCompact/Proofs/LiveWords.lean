import MarkCompact.Proofs.Redirecting

/-!
# Which words are live

Whether a word belongs to a marked object is asked of the bitmap: the last object that starts at the
word or before it in its space must reach past the word.

The tables do not tell the bytes of a word apart, so an address inside of a word is as live as the
word.

Main statements: `isLiveWord_byte` and `Heap.hasMarked_iff` (which objects are marked).
-/

namespace MarkCompact

variable {objs : List Span} {m : MarkBitmap} {a b w : ℕ}

/-- If no object starts at a word, the last one that starts before it decides whether the word is
live. -/
lemma MarkBitmap.Marks.lastIn_before (h : m.Marks objs) (hnot : ¬Starts objs w)
    (ha : ∀ o ∈ objs, o.Covers w → a ≤ o.start) :
    match m.begins.lastIn a w with
    | some i => ∃ o ∈ objs, o.start = i ∧ (Live objs w ↔ o.Covers w)
    | none => ¬Live objs w := by
  obtain ⟨found, none⟩ := Bitset.lastIn_spec h.begins_valid a w
  -- An object around the word starts before it.
  have hbefore : ∀ o ∈ objs, o.Covers w → o.start < w := fun o ho hcov =>
    lt_of_le_of_ne hcov.1 fun heq => hnot ⟨o, ho, heq⟩
  cases hlast : m.begins.lastIn a w with
  | none =>
    rintro ⟨o, ho, hcov⟩
    exact none hlast o.start (ha o ho hcov) (hbefore o ho hcov) ((h.mem_begins _).2 ⟨o, ho, rfl⟩)
  | some i =>
    obtain ⟨_, hi, hmem, hafter⟩ := found i hlast
    obtain ⟨o, ho, rfl⟩ := (h.mem_begins i).1 hmem
    refine ⟨o, ho, rfl, fun ⟨o', ho', hcov⟩ => ?_, live_of_mem ho⟩
    have hle : o'.start ≤ o.start := by
      by_contra hlt
      exact hafter o'.start (by omega) (hbefore o' ho' hcov) ((h.mem_begins _).2 ⟨o', ho', rfl⟩)
    have hpast := h.separate.start_lt_past ho
    obtain rfl :=
      h.separate.eq_of_covers ho' ho (w := o.start) ⟨hle, lt_trans hi hcov.2⟩ ⟨le_refl _, hpast⟩
    exact hcov

/-! ## Heaps whose objects lie in the spaces -/

namespace Heap

variable {μ : Type} {h : Heap μ} {s s' : Space} {i : ℕ} {p : Plan}

/-- Every object that is marked lies in one of the spaces, which are apart. -/
structure Houses (h : Heap μ) (objs : List Span) : Prop where
  marks : h.bitmap.Marks objs
  bitmap_covered : h.bitmap.covered = h.covered
  stop_lt : h.covered.start + h.covered.size < wordValues
  whole : bytesPerWord ∣ h.covered.size
  bounds : ∀ s ∈ h.spaces, ∃ x y, y ≤ h.covered.words ∧ s.bottom = h.covered.addr x
    ∧ s.limit = h.covered.addr y
  apart : h.spaces.Pairwise Space.Apart
  inside : ∀ o ∈ objs, ∃ s ∈ h.spaces, s.bottom ≤ h.covered.addr o.start
    ∧ h.covered.addr o.past ≤ s.limit

lemma contains_of_spaceOf? (hof : h.spaceOf? a = some i) :
    ∃ s, h.spaces[i]? = some s ∧ s.contains a = true := by
  rw [spaceOf?] at hof
  split at hof
  · obtain ⟨hi, hcontains, _⟩ := List.findIdx?_eq_some_iff_getElem.1 hof
    exact ⟨h.spaces[i], List.getElem?_eq_getElem hi, hcontains⟩
  · cases hof

lemma not_contains_of_spaceOf? (hin : h.isIn a = true) (hof : h.spaceOf? a = none)
    (hs : s ∈ h.spaces) : s.contains a = false := by
  rw [spaceOf?, if_pos hin] at hof
  exact List.findIdx?_eq_none_iff.1 hof s hs

namespace Houses

variable (hh : h.Houses objs)
include hh

lemma size_words : h.covered.size = 8 * h.covered.words := by
  have hwhole := hh.whole
  rw [Extent.words, bytesPerWord] at *
  omega

lemma eq_of_contains (hs : s ∈ h.spaces) (hs' : s' ∈ h.spaces) (ha : s.contains a = true)
    (ha' : s'.contains a = true) :
    s = s' := by
  by_contra hne
  have hapart : s.limit ≤ s'.bottom ∨ s'.limit ≤ s.bottom := hh.apart.forall hs hs' hne
  simp only [Space.contains, Bool.and_eq_true, decide_eq_true_iff] at ha ha'
  omega

/-- An object lies in the space of each of its words. -/
lemma inside_of_covers {o : Span} (ho : o ∈ objs) (hcov : o.Covers w) (hb : b < 8) :
    ∃ s ∈ h.spaces, s.contains (h.covered.addr w + b) = true
      ∧ s.bottom ≤ h.covered.addr o.start := by
  obtain ⟨s, hs, h1, h2⟩ := hh.inside o ho
  have hstart := (Extent.addr_le_addr (e := h.covered)).2 hcov.1
  have hpast := (Extent.byte_lt_addr (e := h.covered) hb).2 hcov.2
  refine ⟨s, hs, ?_, h1⟩
  simp only [Space.contains, Bool.and_eq_true, decide_eq_true_iff]
  omega

lemma isIn_byte (hw : w < h.covered.words) (hb : b < 8) : h.isIn (h.covered.addr w + b) = true := by
  have hsize := hh.size_words
  rw [isIn, Bool.and_eq_true, decide_eq_true_iff, decide_eq_true_iff, Extent.addr_eq]
  omega

/-- The space of a word reaches down to some word, and objects around the word start there or
above. -/
lemma bottom_of_spaceOf? (hb : b < 8) (hof : h.spaceOf? (h.covered.addr w + b) = some i) :
    ∃ s x, h.spaces[i]? = some s ∧ s.bottom = h.covered.addr x ∧ x ≤ w ∧ ∀ o ∈ objs, o.Covers w →
    x ≤ o.start := by
  obtain ⟨s, hs, hcontains⟩ := contains_of_spaceOf? hof
  have hmem := List.mem_of_getElem? hs
  obtain ⟨x, y, _, hbottom, _⟩ := hh.bounds s hmem
  refine ⟨s, x, hs, hbottom, ?_, fun o ho hcov => ?_⟩
  · rw [← Extent.addr_le_byte (e := h.covered) hb, ← hbottom]
    simp only [Space.contains, Bool.and_eq_true, decide_eq_true_iff] at hcontains
    exact hcontains.1
  · obtain ⟨s', hs', hcontains', hle⟩ := hh.inside_of_covers ho hcov hb
    rw [hh.eq_of_contains hs' hmem hcontains' hcontains, hbottom, Extent.addr_le_addr] at hle
    exact hle

/-- An address is found live exactly if its word belongs to an object. -/
theorem isLiveWord_byte (hw : w < h.covered.words) (hb : b < 8) :
    h.isLiveWord (h.covered.addr w + b) = .ok (decide (Live objs w)) := by
  have hm := hh.marks
  have hcovered := hh.bitmap_covered
  have hmarked := hm.isMarked_byte (w := w) (by rw [hcovered]; exact hw) hb
  have hbyte := hm.bitOf_byte (w := w) (by rw [hcovered]; exact hw) hb
  rw [hm.isMarked_eq (by rw [hcovered]; exact hw)] at hmarked
  rw [hcovered] at hmarked hbyte
  rw [isLiveWord, hmarked, ok_bind]
  by_cases hstarts : Starts objs w
  · rw [if_pos ((hm.mem_begins w).2 hstarts)]
    obtain ⟨o, ho, rfl⟩ := hstarts
    exact congrArg Except.ok (decide_eq_true (live_of_mem ho
      ⟨le_refl _, hm.separate.start_lt_past ho⟩)).symm
  rw [if_neg fun hmem => hstarts ((hm.mem_begins w).1 hmem)]
  cases hof : h.spaceOf? (h.covered.addr w + b) with
  | none =>
    refine congrArg Except.ok (decide_eq_false ?_).symm
    rintro ⟨o, ho, hcov⟩
    obtain ⟨s, hs, hcontains, _⟩ := hh.inside_of_covers ho hcov hb
    exact Bool.false_ne_true
      ((not_contains_of_spaceOf? (hh.isIn_byte hw hb) hof hs).symm.trans hcontains)
  | some i =>
    obtain ⟨s, x, hspace, hbottom, hle, hstart⟩ := hh.bottom_of_spaceOf? hb hof
    have hbit : ∀ y, y ≤ w → h.bitmap.bitOf (h.covered.addr y) = .ok y := fun y hy => by
      rw [← hcovered]
      exact hm.bitOf_addr (by rw [hcovered]; omega)
    have hlast := hm.lastIn_before hstarts hstart
    simp only [Option.bind_some, hspace]
    rw [hbottom, hbit x hle, ok_bind, hbyte, hbit w le_rfl, ok_bind, Bitset.lastIn?,
      Bitset.checkRange_eq hle (by rw [hm.begins_size, hcovered]; omega), ok_bind]
    cases hfound : h.bitmap.begins.lastIn x w with
    | none =>
      rw [hfound] at hlast
      exact congrArg Except.ok (decide_eq_false hlast).symm
    | some i =>
      rw [hfound] at hlast
      obtain ⟨o, ho, rfl, hlive⟩ := hlast
      have hpast := hm.past_le o ho
      have hbefore := ((Bitset.lastIn_spec hm.begins_valid _ _).1 o.start hfound).2.1
      have hstop := hh.stop_lt
      have hsize := hh.size_words
      rw [hcovered] at hpast
      have hsum : h.covered.addr o.start + bytesPerWord * o.words < wordValues := by
        rw [Extent.addr_add, Extent.addr_eq]
        show h.covered.start + 8 * o.past < _
        omega
      rw [pure_bind]
      dsimp only
      rw [MarkBitmap.addrOf_eq, hm.objectSize_eq ho, ok_bind, hcovered, Word.add_eq hsum, ok_bind]
      refine congrArg Except.ok (decide_eq_decide.2 ?_)
      rw [hlive, Extent.addr_add, Extent.byte_lt_addr hb]
      exact ⟨fun hlt => ⟨hbefore.le, hlt⟩, fun hcov => hcov.2⟩

end Houses

/-- The objects of a plan lie in its spaces. -/
lemma houses_of_serves (hs : p.Serves h) (hp : p.Valid) : h.Houses p.objs where
  marks := hs.consistent.marks
  bitmap_covered := hs.bitmap_covered.trans hs.covered.symm
  stop_lt := by
    rw [hs.consistent.covered]
    exact hs.loaded.laid.covered_lt
  whole := by
    rw [hs.consistent.covered]
    exact ⟨_, hs.loaded.laid.size_words⟩
  bounds s hmem := by
    obtain ⟨i, hi⟩ := List.mem_iff_getElem?.1 hmem
    obtain ⟨z, hz, hover⟩ := (hs.liesOver hp).exists_zone hi
    exact ⟨_, _, ((hs.liesOver hp).ordered z (List.mem_of_getElem? hz)).last_le, hover.bottom,
      hover.limit⟩
  apart := (hs.liesOver hp).spaces_apart
  inside o ho := by
    obtain ⟨z, hz, h1, h2⟩ := hp.holds o ho
    obtain ⟨i, hi⟩ := List.mem_iff_getElem?.1 hz
    obtain ⟨s, hspace, hmatches⟩ := hs.exists_space hi
    have htop := (hp.ordered z hz).top_le_last
    refine ⟨s, List.mem_of_getElem? hspace, ?_, ?_⟩
    · rw [hmatches.bottom, hs.covered, Extent.addr_le_addr]
      exact h1
    · rw [hmatches.limit, hs.covered, Extent.addr_le_addr]
      omega

/-- An address is found live exactly if its word belongs to an object of the plan. -/
theorem isLiveWord_byte (hs : p.Serves h) (hp : p.Valid) (hw : w < p.covered.words) (hb : b < 8) :
    h.isLiveWord (p.covered.addr w + b) = .ok (decide (Live p.objs w)) := by
  rw [← hs.covered] at hw ⊢
  exact (houses_of_serves hs hp).isLiveWord_byte hw hb

/-- A word is found live exactly if it belongs to an object. -/
lemma isLiveWord_eq (hs : p.Serves h) (hp : p.Valid) (hw : w < p.covered.words) :
    h.isLiveWord (p.covered.addr w) = .ok (decide (Live p.objs w)) :=
  isLiveWord_byte (b := 0) hs hp hw (by decide)

/-- The object is marked. -/
structure HasMarked (h : Heap μ) (o : Span) : Prop where
  start_lt : o.start < h.covered.words
  marked : h.bitmap.isMarked (h.covered.addr o.start) = .ok true
  size : h.bitmap.objectSize (h.covered.addr o.start) = .ok o.words

end Heap

/-- The marked objects are those that the bitmap records. -/
lemma Heap.hasMarked_iff {μ : Type} {h : Heap μ} {o : Span} (hm : h.bitmap.Marks objs)
    (hcovered : h.covered = h.bitmap.covered) :
    h.HasMarked o ↔ o ∈ objs := by
  constructor
  · intro ho
    have hmarked := ho.marked
    have hsize := ho.size
    rw [hcovered] at hmarked hsize
    rw [hm.isMarked_eq (hcovered ▸ ho.start_lt), Except.ok.injEq] at hmarked
    obtain ⟨o', ho', heq⟩ := (hm.mem_begins _).1 hmarked
    rw [← heq, hm.objectSize_eq ho', Except.ok.injEq] at hsize
    obtain rfl : o' = o := by
      cases o
      cases o'
      simp_all
    exact ho'
  · intro ho
    have hlt := hm.start_lt ho
    refine ⟨hcovered ▸ hlt, ?_, ?_⟩ <;> rw [hcovered]
    · rw [hm.isMarked_eq hlt, (hm.mem_begins _).2 ⟨o, ho, rfl⟩]
    · exact hm.objectSize_eq ho

/-- The marked objects are those of the plan. -/
lemma Plan.Serves.hasMarked_iff {μ : Type} {h : Heap μ} {p : Plan} {o : Span} (hs : p.Serves h) :
    h.HasMarked o ↔ o ∈ p.objs :=
  Heap.hasMarked_iff hs.consistent.marks (hs.covered.trans hs.bitmap_covered.symm)

end MarkCompact
