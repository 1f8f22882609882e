import MarkCompact.Proofs.Actions
import MarkCompact.Proofs.Addresses
import MarkCompact.Proofs.Starts

/-!
# Spaces in words

A `Zone` is a space in numbers of regions and words: its regions go from `first` up to `last`, the
dense prefix ends at region `keep`, and the objects lie below word `top`.  `Zone.forward` is the
plan of the space: words below the prefix end stay, and above it live words follow one another from
the prefix end on.

`Heap.Consistent h objs` says that the tables of a heap belong together and that its bitmap marks
`objs`.
-/

namespace MarkCompact

/-- A space, in regions and words from the start of the covered range. -/
structure Zone where
  /-- The first region. -/
  first : ℕ
  /-- The region that the dense prefix ends at. -/
  keep : ℕ
  /-- One past the last region. -/
  last : ℕ
  /-- The first word above the objects. -/
  top : ℕ

variable {objs os : List Span} {W w x y : ℕ}

namespace Zone

/-- Where the live words from word `x` on go, above the dense prefix. -/
def packed (z : Zone) (W : ℕ) (objs : List Span) (x : ℕ) : ℕ :=
  z.keep * W + (liveBelow objs x - liveBelow objs (z.keep * W))

/-- Where a live word goes. -/
def forward (z : Zone) (W : ℕ) (objs : List Span) (w : ℕ) : ℕ :=
  if w < z.keep * W then w else z.packed W objs w

/-- The bounds of the zone are in order, within a range of `words` words. -/
structure Ordered (z : Zone) (W words : ℕ) : Prop where
  first_lt_last : z.first < z.last
  first_le_keep : z.first ≤ z.keep
  keep_le_top : z.keep * W ≤ z.top
  top_le_last : z.top ≤ z.last * W
  last_le : z.last * W ≤ words

/-- The object lies in the zone, below its top. -/
def Holds (z : Zone) (W : ℕ) (o : Span) : Prop :=
  z.first * W ≤ o.start ∧ o.past ≤ z.top

/-- The object has no word in the zone. -/
def Misses (z : Zone) (W : ℕ) (o : Span) : Prop :=
  o.past ≤ z.first * W ∨ z.last * W ≤ o.start

/-- Objects with words in the zone lie in it, below its top. -/
def Bounds (z : Zone) (W : ℕ) (objs : List Span) : Prop :=
  ∀ o ∈ objs, z.Holds W o ∨ z.Misses W o

variable {z : Zone} {words : ℕ}

lemma Ordered.first_le_top (h : z.Ordered W words) : z.first * W ≤ z.top :=
  le_trans (Nat.mul_le_mul_right W h.first_le_keep) h.keep_le_top

/-- The zone may be kept up to any boundary of regions below its top. -/
lemma Ordered.withKeep (h : z.Ordered W words) {k : ℕ} (hk : z.first ≤ k)
    (hbelow : z.first < k → k * W < z.top) :
    ({ z with keep := k } : Zone).Ordered W words where
  first_lt_last := h.first_lt_last
  first_le_keep := hk
  keep_le_top := by
    rcases Nat.eq_or_lt_of_le hk with rfl | hlt
    · exact h.first_le_top
    · exact (hbelow hlt).le
  top_le_last := h.top_le_last
  last_le := h.last_le

lemma Ordered.keep_le_last (h : z.Ordered W words) (hW : 0 < W) : z.keep ≤ z.last :=
  Nat.le_of_mul_le_mul_right (le_trans h.keep_le_top h.top_le_last) hW

lemma packed_mono (z : Zone) (W : ℕ) (objs : List Span) (h : x ≤ y) :
    z.packed W objs x ≤ z.packed W objs y := by
  have hmono := liveBelow_mono objs h
  rw [packed, packed]
  omega

@[simp] lemma packed_keep (z : Zone) (W : ℕ) (objs : List Span) :
    z.packed W objs (z.keep * W) = z.keep * W := by
  rw [packed]
  omega

lemma packed_le (h : z.keep * W ≤ x) : z.packed W objs x ≤ x := by
  have hle := liveBelow_le_add objs h
  rw [packed]
  omega

lemma le_packed (z : Zone) (W : ℕ) (objs : List Span) (x : ℕ) : z.keep * W ≤ z.packed W objs x :=
  Nat.le_add_right ..

/-- The plan grows with the live words. -/
lemma packed_add (hx : z.keep * W ≤ x) (h : x ≤ y) :
    z.packed W objs y = z.packed W objs x + (liveBelow objs y - liveBelow objs x) := by
  have h1 := liveBelow_mono objs hx
  have h2 := liveBelow_mono objs h
  rw [packed, packed]
  omega

lemma packed_of_dead (h : x ≤ y) (hdead : ∀ w, x ≤ w → w < y → ¬Live objs w) :
    z.packed W objs y = z.packed W objs x := by
  rw [packed, packed, liveBelow_of_dead h hdead]

lemma packed_lt (hx : z.keep * W ≤ x) (hlive : Live objs x) (h : x < y) :
    z.packed W objs x < z.packed W objs y := by
  have hlt := liveBelow_lt hlive h
  rw [packed_add hx (le_of_lt h)]
  omega

lemma forward_le (z : Zone) (W : ℕ) (objs : List Span) (w : ℕ) : z.forward W objs w ≤ w := by
  rw [forward]
  split
  · exact le_refl w
  · exact packed_le (by omega)

/-- Different live words go to different words, in the same order. -/
lemma forward_lt (hx : Live objs x) (h : x < y) : z.forward W objs x < z.forward W objs y := by
  rw [forward, forward]
  by_cases hxk : x < z.keep * W
  · rw [if_pos hxk]
    split
    · exact h
    · exact lt_of_lt_of_le hxk (le_packed ..)
  · rw [if_neg hxk, if_neg (by omega)]
    exact packed_lt (by omega) hx h

/-- An object of the zone has no word in other regions. -/
lemma Holds.out {o : Span} {r : ℕ} (h : z.Holds W o) (hz : z.Ordered W words)
    (hr : ¬(z.first ≤ r ∧ r < z.last)) :
    o.past ≤ r * W ∨ r * W + W ≤ o.start := by
  have htop := hz.top_le_last
  obtain ⟨h1, h2⟩ := h
  by_cases hlast : z.last ≤ r
  · have := Nat.mul_le_mul_right W hlast
    exact Or.inl (by omega)
  · have := Nat.mul_le_mul_right W (show r + 1 ≤ z.first by omega)
    rw [Nat.succ_mul] at this
    exact Or.inr (by omega)

/-- An object of the zone starts in one of its regions. -/
lemma Holds.region {o : Span} (h : z.Holds W o) (hz : z.Ordered W words) (hW : 0 < W)
    (hpos : o.start < o.past) : z.first ≤ o.start / W ∧ o.start / W < z.last := by
  have htop := hz.top_le_last
  obtain ⟨h1, h2⟩ := h
  exact ⟨(Nat.le_div_iff_mul_le hW).2 h1, div_lt_of_lt_mul (by omega)⟩

/-- One more object in the zone. -/
lemma Bounds.cons {o : Span} (h : z.Bounds W objs) (ho : z.Holds W o) : z.Bounds W (o :: objs) :=
  List.forall_mem_cons.2 ⟨Or.inl ho, h⟩

lemma Bounds.boundary_first (h : z.Bounds W objs) (hz : z.Ordered W words) :
    Boundary objs (z.first * W) := by
  have hlt := Nat.mul_le_mul_right W (le_of_lt hz.first_lt_last)
  intro o ho hcross
  rcases h o ho with hin | hout | hout
  · exact absurd hcross.1 (not_lt.2 hin.1)
  · exact absurd hcross.2 (not_lt.2 hout)
  · exact absurd hcross.1 (not_lt.2 (le_trans hlt hout))

lemma Bounds.dead_top (h : z.Bounds W objs) (hw : z.top ≤ w) (hz : z.Ordered W words)
    (hlast : w < z.last * W) :
    ¬Live objs w := by
  have hfirst := hz.first_le_top
  rintro ⟨o, ho, h1, h2⟩
  rcases h o ho with hin | hout | hout
  · exact absurd (lt_of_lt_of_le h2 hin.2) (not_lt.2 hw)
  · omega
  · omega

/-- Above the top the plan does not grow. -/
lemma packed_top (h : z.Bounds W objs) (hz : z.Ordered W words) (hx : z.top ≤ x)
    (hlast : x ≤ z.last * W) :
    z.packed W objs x = z.packed W objs z.top :=
  packed_of_dead hx fun _ h1 h2 => h.dead_top h1 hz (by omega)

lemma Bounds.mem_top_of_live (h : z.Bounds W objs) (hw : Live objs w) (hlast : w < z.last * W)
    (hz : z.Ordered W words) : w < z.top := by
  by_contra hle
  exact h.dead_top (not_lt.1 hle) hz hlast hw

end Zone

/-- Replacing a member by one that stands in the relation too. -/
lemma forall₂_set {α β : Type} {R : α → β → Prop} {xs : List α} {ys : List β} {i : ℕ} {x : α}
    {y : β} (h : List.Forall₂ R xs ys) (hy : ys[i]? = some y) (hxy : R x y) :
    List.Forall₂ R (xs.set i x) ys := by
  obtain ⟨hlt, rfl⟩ := List.getElem?_eq_some_iff.1 hy
  refine List.forall₂_iff_get.2 ⟨by rw [List.length_set]; exact h.length_eq, fun j h1 h2 => ?_⟩
  rw [List.length_set] at h1
  have hold := h.get h1 h2
  simp only [List.get_eq_getElem, List.getElem_set] at hold ⊢
  split
  case isTrue hij =>
    subst hij
    exact hxy
  case isFalse => exact hold

/-! ## The space of a zone -/

namespace Space

/-- The space lies where the zone does, and its start table covers it. -/
structure Over (s : Space) (e : Extent) (W : ℕ) (z : Zone) : Prop where
  bottom : s.bottom = e.addr (z.first * W)
  limit : s.limit = e.addr (z.last * W)
  top : s.top = e.addr z.top
  starts : s.starts.Covers e (z.first * W) (z.last * W)

/-- The space is planned as the zone. -/
structure Matches (s : Space) (e : Extent) (W : ℕ) (objs : List Span) (z : Zone) :
    Prop extends s.Over e W z where
  newTop : s.newTop = e.addr (z.packed W objs z.top)
  densePrefix : s.densePrefix = e.addr (z.keep * W)

variable {s : Space} {e : Extent} {z : Zone} {words : ℕ}

/-- The end of the dense prefix lies in the space. -/
lemma Over.setDensePrefix_eq (h : s.Over e W z) (hz : z.Ordered W words) :
    s.setDensePrefix (e.addr (z.keep * W)) = .ok { s with densePrefix := e.addr (z.keep * W) } := by
  have hfirst := Nat.mul_le_mul_right W hz.first_le_keep
  have hkeep := hz.keep_le_top
  have htop := hz.top_le_last
  rw [setDensePrefix, h.bottom, h.limit, if_pos (by simp only [Extent.addr_le_addr]; omega)]
  rfl

/-- Recording a start adds it to the known ones. -/
lemma Over.recordStart_eq (h : s.Over e W z) (h1 : z.first * W ≤ x) (h2 : x < z.last * W) :
    ∃ starts, s.recordStart (e.addr x) = .ok { s with starts } ∧ starts.covered = s.starts.covered
      ∧ ∀ must may : ℕ → Prop, s.starts.Between e must may → may x →
        starts.Between e (fun i => must i ∨ i = x) may := by
  obtain ⟨starts, heq, hcovered, hbetween⟩ := h.starts.includes.record_eq h1 h2
  refine ⟨starts, ?_, hcovered, hbetween⟩
  rw [recordStart, heq]
  rfl

lemma Over.withStarts (h : s.Over e W z) {starts : StartTable}
    (hcovered : starts.covered = s.starts.covered) :
    ({ s with starts } : Space).Over e W z :=
  ⟨h.bottom, h.limit, h.top, ⟨hcovered.trans h.starts.covered, h.starts.le, h.starts.stop_lt⟩⟩

lemma Matches.withStarts (h : s.Matches e W objs z) {starts : StartTable}
    (hcovered : starts.covered = s.starts.covered) :
    ({ s with starts } : Space).Matches e W objs z :=
  ⟨h.toOver.withStarts hcovered, h.newTop, h.densePrefix⟩

end Space

/-! ## Heaps -/

namespace Heap

variable {μ : Type} {h : Heap μ} {s s' : Space} {i j : ℕ}

/-- The tables of the heap belong to its covered range, and its bitmap marks the objects. -/
structure Consistent (h : Heap μ) (objs : List Span) : Prop where
  laid : h.table.Laid
  marks : h.bitmap.Marks objs
  bitmap_covered : h.bitmap.covered = h.table.covered
  covered : h.covered = h.table.covered
  geometry : h.geometry = h.table.geometry

lemma Consistent.words_eq (hc : h.Consistent objs) :
    h.bitmap.covered.words = h.table.covered.words := by
  rw [hc.bitmap_covered]

lemma Consistent.withLog (hc : h.Consistent objs) (log : List LogRecord) :
    ({ h with log } : Heap μ).Consistent objs :=
  ⟨hc.laid, hc.marks, hc.bitmap_covered, hc.covered, hc.geometry⟩

/-- Consistency depends only on the bitmap and on the shape of the tables. -/
lemma Consistent.of_sameShape {h' : Heap μ} (hc : h.Consistent objs)
    (hbitmap : h'.bitmap = h.bitmap) (hcovered : h'.covered = h.covered)
    (hgeometry : h'.geometry = h.geometry) (hshape : h.table.SameShape h'.table) :
    h'.Consistent objs where
  laid := hshape.laid hc.laid
  marks := hbitmap ▸ hc.marks
  bitmap_covered := by rw [hbitmap, hc.bitmap_covered, hshape.covered]
  covered := by rw [hcovered, hc.covered, hshape.covered]
  geometry := by rw [hgeometry, hc.geometry, hshape.geometry]

lemma space_setSpace_self (hs : h.spaces[i]? = some s) :
    (h.setSpace i s').spaces[i]? = some s' := by
  have hlt := (List.getElem?_eq_some_iff.1 hs).1
  simp [setSpace, hlt]

lemma space_setSpace_of_ne (hij : i ≠ j) : (h.setSpace i s').spaces[j]? = h.spaces[j]? := by
  simp [setSpace, List.getElem?_set_ne hij]

end Heap

end MarkCompact
