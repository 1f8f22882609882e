import MarkCompact.Forwarding
import MarkCompact.Proofs.Accounting

/-!
# Block offsets

`RegionTable.fillBlocks` records, for every block of a region in which an object starts, the live
words of the region left of the first such object (`fillBlocks_eq`).  The search goes from object to
object; that it has come to word `beg` means that every block has been recorded whose first object
start lies below `beg`.
-/

namespace MarkCompact

variable {objs : List Span} {m : MarkBitmap} {beg first stop r x : ℕ}

/-- Word `x` is the first object start of its block. -/
structure FirstOfBlock (objs : List Span) (B x : ℕ) : Prop where
  starts : Starts objs x
  before : ∀ y, x / B * B ≤ y → y < x → ¬Starts objs y

namespace RegionTable

/-- The offsets of the blocks whose first object start lies from `first` on and below `stop` are
recorded, counted from `first`. -/
def Recorded (t : RegionTable) (objs : List Span) (first stop : ℕ) : Prop :=
  ∀ x, first ≤ x → x < stop → FirstOfBlock objs t.geometry.blockWords x →
    (t.blocks.get (x / t.geometry.blockWords)).offset = liveBelow objs x - liveBelow objs first

/-- If the blocks of region `r` are marked as filled, they are. -/
def BlocksValid (t : RegionTable) (objs : List Span) (r : ℕ) : Prop :=
  (t.regions.get r).blocksFilled = true →
    t.Recorded objs (r * t.geometry.regionWords)
      (r * t.geometry.regionWords + t.geometry.regionWords)

variable {t : RegionTable}

lemma sameShape_setBlock (t : RegionTable) (b : ℕ) (entry : Block) :
    t.SameShape { t with blocks := t.blocks.set b entry } :=
  ⟨rfl, rfl, rfl, Table.size_set .., rfl, Table.blank_set ..⟩

lemma block_eq {b : ℕ} (hb : b < t.geometry.blockCount) : t.block b = .ok (t.blocks.get b) := by
  rw [block, if_pos hb]
  rfl

lemma Laid.block_lt (ht : t.Laid) (hx : x < t.covered.words) :
    x / t.geometry.blockWords < t.geometry.blockCount := by
  apply div_lt_of_lt_mul
  rw [Geometry.blockCount, Nat.mul_assoc, t.geometry.blocks_mul_blockWords, ← ht.covered_words]
  exact hx

/-- Region starts are block starts. -/
lemma region_le_block (t : RegionTable) (h : r * t.geometry.regionWords ≤ x) :
    r * t.geometry.regionWords ≤ x / t.geometry.blockWords * t.geometry.blockWords := by
  rw [← t.geometry.blocks_mul_blockWords, ← Nat.mul_assoc] at h ⊢
  exact Nat.mul_le_mul_right _ ((Nat.le_div_iff_mul_le t.geometry.blockWords_pos).2 h)

/-- The last block that the search has recorded is that of `beg` exactly if an object starts in it
before `beg`. -/
def SeesBlock (objs : List Span) (B first beg : ℕ) (blockSeen : Option ℕ) : Prop :=
  blockSeen = some (beg / B) ↔ ∃ y, first ≤ y ∧ y < beg ∧ Starts objs y ∧ y / B = beg / B

/-- Where no object has started no block has been recorded. -/
lemma seesBlock_none {B : ℕ} (hnone : ∀ x, first ≤ x → x < beg → ¬Starts objs x) :
    SeesBlock objs B first beg none := by
  refine ⟨fun h => absurd h (by simp), ?_⟩
  rintro ⟨y, hy1, hy2, hy, _⟩
  exact absurd hy (hnone y hy1 hy2)

/-- From one object start to the next. -/
lemma seesBlock_next {B s : ℕ} (hle : first ≤ s) (hs : Starts objs s) (hlt : s < beg)
    (hnone : ∀ x, s < x → x < beg → ¬Starts objs x) :
    SeesBlock objs B first beg (some (s / B)) := by
  rw [SeesBlock, Option.some.injEq]
  constructor
  · exact fun hblocks => ⟨s, hle, hlt, hs, hblocks⟩
  · rintro ⟨y, _, hy2, hy, hblocks⟩
    have hyle : y ≤ s := by
      by_contra hgt
      exact hnone y (by omega) hy2 hy
    refine le_antisymm (Nat.div_le_div_right hlt.le) ?_
    rw [← hblocks]
    exact Nat.div_le_div_right hyle

/-- Where no further object starts there is nothing to record. -/
lemma Recorded.extend {s : ℕ} (h : t.Recorded objs first (s + 1))
    (hnone : ∀ x, s < x → x < stop → ¬Starts objs x) :
    t.Recorded objs first stop := by
  intro x h1 h2 hx
  by_cases hle : x ≤ s
  · exact h x h1 (by omega) hx
  · exact absurd hx.starts (hnone x (by omega) h2)

/-- The table `t'` is `t` with the blocks recorded whose first object start lies from `first` on and
below `stop`. -/
structure RecordedTo (t t' : RegionTable) (objs : List Span) (first stop : ℕ) : Prop where
  shape : t.SameShape t'
  regions : t'.regions = t.regions
  recorded : t'.Recorded objs first stop
  other : ∀ b, (∀ x, first ≤ x → x < stop → x / t.geometry.blockWords ≠ b) →
    t'.blocks.get b = t.blocks.get b

lemma RecordedTo.refl (h : t.Recorded objs first stop) : t.RecordedTo t objs first stop :=
  ⟨.refl t, rfl, h, fun _ _ => rfl⟩

lemma RecordedTo.extend {t' : RegionTable} {s : ℕ} (h : t.RecordedTo t' objs first (s + 1))
    (hlt : s < stop) (hnone : ∀ x, s < x → x < stop → ¬Starts objs x) :
    t.RecordedTo t' objs first stop :=
  ⟨h.shape, h.regions, h.recorded.extend hnone,
    fun b hb => h.other b fun x h1 h2 => hb x h1 (by omega)⟩

lemma RecordedTo.trans {t' t'' : RegionTable} {s : ℕ} (h : t.RecordedTo t' objs first s)
    (hle : s ≤ stop) (h' : t'.RecordedTo t'' objs first stop) :
    t.RecordedTo t'' objs first stop where
  shape := h.shape.trans h'.shape
  regions := h'.regions.trans h.regions
  recorded := h'.recorded
  other b hb := by
    rw [h'.other b (by rw [h.shape.geometry]; exact hb),
      h.other b fun x h1 h2 => hb x h1 (by omega)]

/-- Records the block of the object start `s`, unless it is the last block recorded. -/
def recordStart (t : RegionTable) (s live : ℕ) (blockSeen : Option ℕ) : Except Fault RegionTable :=
  if blockSeen = some (s / t.geometry.blockWords) then pure t
  else do
    let _ ← t.block (s / t.geometry.blockWords)
    let entry ← Block.setOffset live
    pure { t with blocks := t.blocks.set (s / t.geometry.blockWords) entry }

/-- One step of the search. -/
lemma recordBlocks_succ {tries live : ℕ} {blockSeen : Option ℕ} (hlt : beg < stop) :
    recordBlocks m stop (tries + 1) beg live blockSeen t = (do
      let t₁ ← t.recordStart beg live blockSeen
      if stop ≤ m.ends.firstIn beg stop + 1 then pure t₁
      else
        recordBlocks m stop tries (m.begins.firstIn (m.ends.firstIn beg stop + 1) stop)
          (live + (m.ends.firstIn beg stop - beg + 1))
          (some (beg / t.geometry.blockWords)) t₁) := by
  rw [recordBlocks, if_neg (not_le.2 hlt), recordStart]
  dsimp only
  rw [Geometry.shiftRight_blockLog]
  split
  · rfl
  · simp only [bind_assoc]

/-- After an object start its block has been recorded. -/
lemma recordStart_eq (ht : t.Laid) {s live : ℕ} {blockSeen : Option ℕ} (hs : s < t.covered.words)
    (hle : first ≤ s) (hlive : live = liveBelow objs s - liveBelow objs first)
    (hlimit : live < liveLimit) (hseen : SeesBlock objs t.geometry.blockWords first s blockSeen)
    (hrecorded : t.Recorded objs first s) :
    ∃ t₁, t.recordStart s live blockSeen = .ok t₁ ∧ t.RecordedTo t₁ objs first (s + 1) := by
  have hblock := ht.block_lt hs
  rw [recordStart]
  by_cases hold : blockSeen = some (s / t.geometry.blockWords)
  · -- An object before `s` starts in the block of `s`.
    obtain ⟨y, hy1, hy2, hy, hsame⟩ := hseen.1 hold
    refine ⟨t, if_pos hold, .refl fun x h1 h2 hx => ?_⟩
    by_cases hxs : x = s
    · subst hxs
      have hylow := Nat.div_mul_le_self y t.geometry.blockWords
      rw [hsame] at hylow
      exact absurd hy (hx.before y hylow hy2)
    · exact hrecorded x h1 (by omega) hx
  · rw [if_neg hold, block_eq hblock, ok_bind, Block.setOffset, if_pos hlimit]
    refine ⟨_, rfl, t.sameShape_setBlock _ _, rfl, fun x h1 h2 hx => ?_, fun b hb => ?_⟩
    · by_cases hxs : x = s
      · subst hxs
        exact (congrArg Block.offset
          (Table.get_set_self _ _ (by rw [ht.blocks_size]; exact hblock))).trans hlive
      · have hne : s / t.geometry.blockWords ≠ x / t.geometry.blockWords := fun hsame =>
          hold (hseen.2 ⟨x, h1, by omega, hx.starts, hsame.symm⟩)
        exact (congrArg Block.offset (Table.get_set_of_ne _ _ hne)).trans
          (hrecorded x h1 (by omega) hx)
    · exact Table.get_set_of_ne _ _ (hb s hle (Nat.lt_add_one s))

/-- From the object start `beg` on, the rest of the blocks up to `stop` is recorded. -/
lemma recordBlocks_eq (ht : t.Laid) (hm : m.Marks objs) (tries : ℕ) {live : ℕ}
    {blockSeen : Option ℕ} (hstop : stop = first + t.geometry.regionWords)
    (hcovered : m.covered = t.covered) (hwords : stop ≤ t.covered.words) (hle : first ≤ beg)
    (hstart : beg < stop → Starts objs beg)
    (hlive : live = liveBelow objs beg - liveBelow objs first)
    (hseen : beg < stop → SeesBlock objs t.geometry.blockWords first beg blockSeen)
    (hrecorded : t.Recorded objs first (min beg stop)) (htries : stop - beg < tries) :
    ∃ t', recordBlocks m stop tries beg live blockSeen t = .ok t'
      ∧ t.RecordedTo t' objs first stop := by
  induction tries generalizing beg live blockSeen t with
  | zero => omega
  | succ tries ih =>
    by_cases hend : stop ≤ beg
    · rw [min_eq_right hend] at hrecorded
      exact ⟨t, by rw [recordBlocks, if_pos hend]; rfl, .refl hrecorded⟩
    obtain ⟨o, ho, rfl⟩ := hstart (by omega)
    have hpos := hm.separate.start_lt_past ho
    have hpast := hm.past_le o ho
    have hlimit := ht.regionWords_lt
    have hsize := liveBelow_le_add objs hle
    rw [min_eq_left (by omega)] at hrecorded
    obtain ⟨t₁, heq₁, hto⟩ :=
      recordStart_eq ht (by omega) hle hlive (by omega) (hseen (by omega)) hrecorded
    rw [recordBlocks_succ (by omega), heq₁, ok_bind,
      hm.firstIn_ends ho ⟨le_refl _, hpos⟩ (by omega)]
    by_cases hlast : stop ≤ min (o.past - 1) stop + 1
    · rw [if_pos hlast]
      exact ⟨t₁, rfl, hto.extend (by omega)
        fun x h1 h2 => hm.separate.not_starts_inside ho h1 (by omega)⟩
    · -- The search goes on at the next object, and no object starts in between.
      have hnext : min (o.past - 1) stop + 1 = o.past := by omega
      rw [if_neg hlast, hnext, show min (o.past - 1) stop - o.start + 1 = o.past - o.start by omega]
      have found := hm.firstIn_begins (a := o.past) (b := stop) (by omega)
      have hlow := found.start_le
      have hsame := hm.liveBelow_firstIn (b := stop) (by omega) (hm.separate.boundary_past ho)
      have hcount := liveBelow_covers ho (le_of_lt hpos) (le_refl o.past)
      have hmono := liveBelow_mono objs hle
      generalize m.begins.firstIn o.past stop = next at found hlow hsame ⊢
      have hnone : ∀ x, o.start < x → x < next → ¬Starts objs x := fun x h1 h2 => by
        by_cases hx : x < o.past
        · exact hm.separate.not_starts_inside ho h1 hx
        · exact found.before x (by omega) h2
      have hgeometry := hto.shape.geometry
      have hrecorded₁ : t₁.Recorded objs first (min next stop) :=
        hto.recorded.extend fun x h1 h2 => hnone x h1 (by omega)
      obtain ⟨t', heq, hto'⟩ := ih (hto.shape.laid ht)
        (by rw [hgeometry]; exact hstop) (by rw [hto.shape.covered]; exact hcovered)
          (by rw [hto.shape.covered]; exact hwords)
        (by omega) (fun hlt => found.holds hlt) (show live + (o.past - o.start) = _ by omega)
        (fun _ => by rw [hgeometry]; exact seesBlock_next hle ⟨o, ho, rfl⟩ (by omega) hnone)
          hrecorded₁ (by omega)
      exact ⟨t', heq, hto.trans (by omega) hto'⟩

/-- The table `t'` has more block offsets than `t`, and is otherwise the same. -/
structure Refilled (objs : List Span) (t t' : RegionTable) : Prop where
  shape : t.SameShape t'
  regions : ∀ q, t'.regions.get q
    = { t.regions.get q with blocksFilled := (t'.regions.get q).blocksFilled }
  valid : ∀ q, t.BlocksValid objs q → t'.BlocksValid objs q

lemma Refilled.refl (objs : List Span) (t : RegionTable) : Refilled objs t t :=
  ⟨.refl t, fun _ => rfl, fun _ h => h⟩

lemma Refilled.trans {t t' t'' : RegionTable} (h : Refilled objs t t') (h' : Refilled objs t' t'') :
    Refilled objs t t'' where
  shape := h.shape.trans h'.shape
  regions q := by rw [h'.regions q, h.regions q]
  valid q hq := h'.valid q (h.valid q hq)

/-- The blocks of another region keep their offsets. -/
lemma Recorded.of_other {t' : RegionTable} {q : ℕ} (hgeometry : t'.geometry = t.geometry)
    (hqr : q ≠ r) (hother : ∀ b, (∀ x, r * t.geometry.regionWords ≤ x →
      x < r * t.geometry.regionWords + t.geometry.regionWords →
      x / t.geometry.blockWords ≠ b) → t'.blocks.get b = t.blocks.get b)
    (h : t.Recorded objs (q * t.geometry.regionWords)
      (q * t.geometry.regionWords + t.geometry.regionWords)) :
    t'.Recorded objs (q * t.geometry.regionWords)
      (q * t.geometry.regionWords + t.geometry.regionWords) := by
  intro x h1 h2 hx
  rw [hgeometry] at hx ⊢
  rw [hother, h x h1 h2 hx]
  intro y hy1 hy2 hsame
  have hx' := t.geometry.div_blockWords_div x
  rw [← hsame, t.geometry.div_blockWords_div, div_eq_of_bounds hy1 hy2,
    div_eq_of_bounds h1 h2] at hx'
  exact hqr hx'.symm

/-- The words of a region are covered. -/
lemma Laid.region_words_le (ht : t.Laid) (hr : r < t.geometry.regionCount) :
    r * t.geometry.regionWords + t.geometry.regionWords ≤ t.covered.words := by
  rw [ht.covered_words, ← Nat.succ_mul]
  exact Nat.mul_le_mul_right _ hr

/-- Once the offsets of a region have been recorded, the region is marked as filled. -/
lemma RecordedTo.markFilled_eq {t₁ : RegionTable} (ht : t.Laid) (hr : r < t.geometry.regionCount)
    (h : t.RecordedTo t₁ objs (r * t.geometry.regionWords)
      (r * t.geometry.regionWords + t.geometry.regionWords)) :
    ∃ t', (t₁.update r fun a => pure { a with blocksFilled := true }) = .ok t' ∧ Refilled objs t t'
      ∧ (t'.regions.get r).blocksFilled = true ∧ t'.BlocksValid objs r
      ∧ ∀ q, q ≠ r → t'.regions.get q = t.regions.get q := by
  have ht₁ := h.shape.laid ht
  have hr₁ : r < t₁.geometry.regionCount := h.shape.geometry ▸ hr
  have hself := ht₁.get_setRegion_self (a := { t₁.regions.get r with blocksFilled := true }) hr₁
  have hvalid : ∀ q, q = r ∨ t.BlocksValid objs q →
      (t₁.setRegion r { t₁.regions.get r with blocksFilled := true }).BlocksValid objs q := by
    intro q hq hfilled
    rw [setRegion_geometry, h.shape.geometry]
    by_cases hqr : q = r
    · subst hqr
      exact h.recorded
    · rw [Laid.get_setRegion_of_ne hqr, h.regions] at hfilled
      exact Recorded.of_other h.shape.geometry hqr h.other (hq.resolve_left hqr hfilled)
  refine ⟨_, Laid.update_pure hr₁, ⟨h.shape.trans (t₁.sameShape_setRegion _ _), fun q => ?_,
    fun q hq => hvalid q (Or.inr hq)⟩, by rw [hself], hvalid r (Or.inl rfl), fun q hqr =>
      by rw [Laid.get_setRegion_of_ne hqr, h.regions]⟩
  by_cases hqr : q = r
  · subst hqr
    rw [hself, h.regions]
  · rw [Laid.get_setRegion_of_ne hqr, h.regions]

/-- Recording the block offsets of a region. -/
theorem fillBlocks_eq (ht : t.Laid) (hm : m.Marks objs) (hcovered : m.covered = t.covered)
    (hr : r < t.geometry.regionCount)
    (hpartial : (t.regions.get r).partialWords = partialOf objs t.geometry.regionWords r) :
    ∃ t', t.fillBlocks m r = .ok t' ∧ Refilled objs t t' ∧ (t'.regions.get r).blocksFilled = true
      ∧ t'.BlocksValid objs r ∧ ∀ q, q ≠ r → t'.regions.get q = t.regions.get q := by
  have hwords := ht.region_words_le hr
  have hsep := hm.separate
  rw [fillBlocks, Laid.region_eq hr, ok_bind, hpartial]
  dsimp only
  by_cases hfull : t.geometry.regionWords ≤ partialOf objs t.geometry.regionWords r
  · rw [if_pos hfull]
    have hto : t.RecordedTo t objs (r * t.geometry.regionWords)
        (r * t.geometry.regionWords + t.geometry.regionWords) :=
      .refl fun x h1 h2 hx => absurd hx.starts (not_starts_of_lt_partialOf hsep h1 (by omega))
    exact hto.markFilled_eq ht hr
  · rw [if_neg hfull, Laid.regionStart_eq, ← hcovered,
      hm.bitOf_addr (by rw [hcovered]; omega), ok_bind]
    have hcount := liveBelow_partialOf hsep t.geometry.regionWords r
    have found :=
      hm.firstIn_begins (a := r * t.geometry.regionWords + partialOf objs t.geometry.regionWords r)
      (b := r * t.geometry.regionWords + t.geometry.regionWords) (by omega)
    have hsame :=
      hm.liveBelow_firstIn (b := r * t.geometry.regionWords + t.geometry.regionWords) (by omega)
      (boundary_partialOf hsep (not_le.1 hfull))
    have hlow := found.start_le
    generalize m.begins.firstIn
      (r * t.geometry.regionWords + partialOf objs t.geometry.regionWords r)
      (r * t.geometry.regionWords + t.geometry.regionWords) = beg at found hsame hlow ⊢
    -- No object starts in the region before the first one that is found.
    have hnone : ∀ x, r * t.geometry.regionWords ≤ x → x < beg → ¬Starts objs x := by
      intro x h1 h2
      by_cases hx : x < r * t.geometry.regionWords + partialOf objs t.geometry.regionWords r
      · exact not_starts_of_lt_partialOf hsep h1 hx
      · exact found.before x (by omega) h2
    have hlive : partialOf objs t.geometry.regionWords r
        = liveBelow objs beg - liveBelow objs (r * t.geometry.regionWords) := by omega
    obtain ⟨t₁, heq, hto⟩ :=
      recordBlocks_eq ht hm (t.geometry.regionWords + 1) rfl hcovered hwords (by omega)
      (fun hlt => found.holds hlt) hlive (fun _ => seesBlock_none hnone)
      (fun x h1 h2 hx => absurd hx.starts (hnone x h1 (by omega))) (by omega)
    rw [heq, ok_bind]
    exact hto.markFilled_eq ht hr

end RegionTable

end MarkCompact
