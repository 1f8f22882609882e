import MarkCompact.Proofs.Compacted

/-!
# What the spaces hold after a cycle

When a plan has been carried out, each space is filled up to its new top: with the objects at their
new places, and in the dense prefix with the fillers that holes have become.

Main statements: `Plan.Valid.tiling` (places and holes fill each space) and
`Plan.Compacted.objectWords_eq` (headers say so).
-/

namespace MarkCompact

variable {p : Plan} {o o' : Span} {z : Zone} {i w x : ℕ}

namespace Plan

/-- Where an object goes. -/
def place (p : Plan) (o : Span) : Span :=
  ⟨p.forward o.start, o.words⟩

/-- The span is the place of an object, or a hole of a dense prefix. -/
def Tile (p : Plan) (o : Span) : Prop :=
  (∃ o' ∈ p.objs, p.place o' = o) ∨ p.Hole o

/-- Starts are recorded for tiles. -/
lemma finalStart_iff : p.FinalStart i ↔ ∃ o, p.Tile o ∧ o.start = i := by
  constructor
  · rintro (⟨o, ho, rfl⟩ | ⟨o, ho, rfl⟩)
    · exact ⟨p.place o, Or.inl ⟨o, ho, rfl⟩, rfl⟩
    · exact ⟨o, Or.inr ho, rfl⟩
  · rintro ⟨_, ⟨o, ho, rfl⟩ | ho, rfl⟩
    · exact Or.inl ⟨o, ho, rfl⟩
    · exact Or.inr ⟨_, ho, rfl⟩

namespace Valid

variable (hp : p.Valid)
include hp

/-- A word of the place of an object is the place of a word of the object. -/
lemma exists_of_place_covers (ho : o ∈ p.objs) (hx : (p.place o).Covers x) :
    ∃ w, o.Covers w ∧ p.forward w = x := by
  obtain ⟨h1, h2⟩ := hx
  have hpast : (p.place o).past = p.forward o.start + o.words := rfl
  have hstart : (p.place o).start = p.forward o.start := rfl
  have hk : x - p.forward o.start < o.words := by omega
  exact ⟨o.start + (x - p.forward o.start), Span.covers_add hk, by rw [hp.forward_add ho hk]; omega⟩

/-- The place of a word of an object is a word of the place of the object. -/
lemma place_covers (ho : o ∈ p.objs) (hw : o.Covers w) : (p.place o).Covers (p.forward w) := by
  obtain ⟨h1, h2⟩ := hw
  rw [Span.past] at h2
  have heq := hp.forward_add ho (show w - o.start < o.words by omega)
  rw [show o.start + (w - o.start) = w by omega] at heq
  have hpast : (p.place o).past = p.forward o.start + o.words := rfl
  have hstart : (p.place o).start = p.forward o.start := rfl
  exact ⟨by omega, by omega⟩

lemma tile_pos (ho : p.Tile o) : 0 < o.words := by
  rcases ho with ⟨o', ho', rfl⟩ | ⟨_, _, hole⟩
  · exact hp.separate.words_pos o' ho'
  · exact hole.pos

/-- Tiles that share a word are the same. -/
theorem tile_eq_of_covers (ho : p.Tile o) (ho' : p.Tile o') (hx : o.Covers x) (hx' : o'.Covers x) :
    o = o' := by
  rcases ho with ⟨q, hq, rfl⟩ | hole <;> rcases ho' with ⟨q', hq', rfl⟩ | hole'
  · exact congrArg p.place (hp.eq_of_place hq hq' hx.1 hx.2 hx'.1 hx'.2)
  · obtain ⟨w, hw, heq⟩ := hp.exists_of_place_covers hq hx
    exact absurd heq (hole'.ne_forward hp hx' (live_of_mem hq hw))
  · obtain ⟨w, hw, heq⟩ := hp.exists_of_place_covers hq' hx'
    exact absurd heq (hole.ne_forward hp hx (live_of_mem hq' hw))
  · exact hole.eq_of_covers hole' hp hx hx'

/-- A tile lies in a zone, below the new top. -/
lemma exists_zone_of_tile (ho : p.Tile o) :
    ∃ z ∈ p.zones, z.first * p.regionWords ≤ o.start ∧ o.past ≤ z.newTop p.regionWords p.objs := by
  rcases ho with ⟨q, hq, rfl⟩ | ⟨z, hz, hole⟩
  · obtain ⟨z, hz, hholds⟩ := hp.holds q hq
    have hpos := hp.separate.words_pos q hq
    have hord := hp.ordered z hz
    have hhas : ∀ k, k < q.words → z.Has p.regionWords (q.start + k) :=
      fun k hk => hholds.has hord (Span.covers_add hk)
    refine ⟨z, hz, (hp.has_forward hz (hhas 0 hpos)).1, ?_⟩
    -- The last word of the object goes below the new top.
    have hlast := hhas (q.words - 1) (by omega)
    have hadd := hp.forward_add hq (show q.words - 1 < q.words by omega)
    have hlive := live_of_mem hq (Span.covers_add (show q.words - 1 < q.words by omega))
    have htop := hp.top_of_live hz hlive hlast
    have hlt : p.forward (q.start + (q.words - 1)) < z.newTop p.regionWords p.objs := by
      by_cases hkeep : z.keep * p.regionWords ≤ q.start + (q.words - 1)
      · rw [hp.forward_eq hz hlast]
        exact Zone.forward_lt_newTop htop hlive hkeep
      · rw [hp.forward_of_lt_keep hz hlast.1 (not_le.1 hkeep)]
        exact lt_of_lt_of_le (not_le.1 hkeep) (z.le_packed ..)
    rw [show (p.place q).past = p.forward q.start + q.words from rfl]
    omega
  · exact ⟨z, hz, hole.first_le, le_trans hole.past_le (z.le_packed ..)⟩

/-- A tile that starts in a zone lies in it, below the new top. -/
lemma tile_bounds (hz : z ∈ p.zones) (ho : p.Tile o) (hhas : z.Has p.regionWords o.start) :
    o.past ≤ z.newTop p.regionWords p.objs := by
  obtain ⟨z', hz', h1, h2⟩ := hp.exists_zone_of_tile ho
  have hpos := hp.tile_pos ho
  have hpast : o.past = o.start + o.words := rfl
  have htop := (hp.ordered z' hz').newTop_le p.objs
  obtain rfl := hp.eq_of_has hz hz' hhas ((hp.ordered z' hz').has_of_le h1 (by omega))
  exact h2

omit hp in
/-- Around a dead word of a dense prefix there is a hole. -/
lemma exists_hole (hz : z ∈ p.zones) (h1 : z.first * p.regionWords ≤ x)
    (h2 : x < z.keep * p.regionWords) (hdead : ¬Live p.objs x) : ∃ o, p.Hole o ∧ o.Covers x := by
  classical
  -- To the left the hole goes on as long as words are dead, and likewise to the right.
  have hleft : ∃ k, z.first * p.regionWords ≤ x - k ∧ k ≤ x ∧ (∀ w, x - k ≤ w → w ≤ x →
      ¬Live p.objs w)
      ∧ (x - k = z.first * p.regionWords ∨ Live p.objs (x - k - 1)) := by
    have hex : ∃ k, x - k = z.first * p.regionWords ∨ Live p.objs (x - k - 1) :=
      ⟨x - z.first * p.regionWords, Or.inl (by omega)⟩
    have hle : Nat.find hex ≤ x - z.first * p.regionWords := Nat.find_le (Or.inl (by omega))
    refine ⟨Nat.find hex, by omega, by omega, fun w hw1 hw2 hw => ?_, Nat.find_spec hex⟩
    by_cases heq : w = x
    · exact hdead (heq ▸ hw)
    · exact Nat.find_min hex (m := x - w - 1) (by omega)
        (Or.inr (by rw [show x - (x - w - 1) - 1 = w by omega]; exact hw))
  have hright : ∃ k, x + 1 + k ≤ z.keep * p.regionWords ∧ (∀ w, x ≤ w → w < x + 1 + k →
      ¬Live p.objs w)
      ∧ (x + 1 + k = z.keep * p.regionWords ∨ Live p.objs (x + 1 + k)) := by
    have hex : ∃ k, x + 1 + k = z.keep * p.regionWords ∨ Live p.objs (x + 1 + k) :=
      ⟨z.keep * p.regionWords - x - 1, Or.inl (by omega)⟩
    have hle : Nat.find hex ≤ z.keep * p.regionWords - x - 1 := Nat.find_le (Or.inl (by omega))
    refine ⟨Nat.find hex, by omega, fun w hw1 hw2 hw => ?_, Nat.find_spec hex⟩
    by_cases heq : w = x
    · exact hdead (heq ▸ hw)
    · exact Nat.find_min hex (m := w - x - 1) (by omega)
        (Or.inr (by rw [show x + 1 + (w - x - 1) = w by omega]; exact hw))
  obtain ⟨l, hl1, hl2, hl3, hl4⟩ := hleft
  obtain ⟨r, hr1, hr2, hr3⟩ := hright
  have hpast : (⟨x - l, x + 1 + r - (x - l)⟩ : Span).past = x + 1 + r := by
    simp only [Span.past]
    omega
  refine ⟨⟨x - l, x + 1 + r - (x - l)⟩, ⟨z, hz, ?_⟩, by show x - l ≤ x; omega, by rw [hpast]; omega⟩
  refine ⟨hl1, by rw [hpast]; exact hr1, by show 0 < x + 1 + r - (x - l); omega,
    fun w hw1 hw2 => ?_, hl4, by rw [hpast]; exact hr3⟩
  rw [hpast] at hw2
  by_cases hle : w ≤ x
  · exact hl3 w hw1 hle
  · exact hr2 w (by omega) hw2

/-- Every word of a zone below the new top lies in a tile. -/
lemma exists_tile (hz : z ∈ p.zones) (h1 : z.first * p.regionWords ≤ x)
    (h2 : x < z.newTop p.regionWords p.objs) :
    ∃ o, p.Tile o ∧ o.Covers x := by
  have hplace : ∀ w, Live p.objs w → p.forward w = x → ∃ o, p.Tile o ∧ o.Covers x := by
    rintro w ⟨o, ho, hcov⟩ rfl
    exact ⟨p.place o, Or.inl ⟨o, ho, rfl⟩, hp.place_covers ho hcov⟩
  by_cases hkeep : x < z.keep * p.regionWords
  · by_cases hx : Live p.objs x
    · exact hplace x hx (hp.forward_of_lt_keep hz h1 hkeep)
    · obtain ⟨o, ho, hcov⟩ := exists_hole hz h1 hkeep hx
      exact ⟨o, Or.inr ho, hcov⟩
  · obtain ⟨w, hw1, hw2, hw, heq⟩ := Zone.exists_live_packed (not_lt.1 hkeep) h2
    have hfirst := Nat.mul_le_mul_right p.regionWords (hp.ordered z hz).first_le_keep
    refine hplace w hw ?_
    rw [hp.forward_eq hz ((hp.ordered z hz).has_of_le (by omega) hw2), Zone.forward,
      if_neg (not_lt.2 hw1), heq]

/-- The tiles of a zone fill it up to the new top. -/
theorem tiling (hz : z ∈ p.zones) :
    ∃ tiles, Tiling (z.first * p.regionWords) tiles (z.newTop p.regionWords p.objs)
    ∧ ∀ o, o ∈ tiles ↔ p.Tile o ∧ z.Has p.regionWords o.start := by
  have hord := hp.ordered z hz
  have htop := hord.newTop_le p.objs
  have hlast := hord.top_le_last
  have hkeep := z.le_packed p.regionWords p.objs z.top
  have hfirst := Nat.mul_le_mul_right p.regionWords hord.first_le_keep
  have hregions : z.last * p.regionWords ≤ p.covered.words := hord.last_le
  have hnew : z.first * p.regionWords ≤ z.newTop p.regionWords p.objs := le_trans hfirst hkeep
  -- A tile with a word in the zone starts in it.
  have hin : ∀ o, p.Tile o → o.start < z.last * p.regionWords → z.first * p.regionWords < o.past →
      z.Has p.regionWords o.start := by
    intro o ho h1 h2
    obtain ⟨z', hz', h3, h4⟩ := hp.exists_zone_of_tile ho
    have hord' := hp.ordered z' hz'
    have htop' := hord'.newTop_le p.objs
    have hlast' := hord'.top_le_last
    have hpos := hp.tile_pos ho
    have hpast : o.past = o.start + o.words := rfl
    by_cases hlow : z.first * p.regionWords ≤ o.start
    · exact ⟨hlow, h1⟩
    · obtain rfl := hp.eq_of_has hz hz' (w := z.first * p.regionWords)
        ⟨le_rfl, Nat.mul_lt_mul_of_pos_right hord.first_lt_last p.regionWords_pos⟩
          ⟨by omega, by omega⟩
      exact absurd h3 hlow
  obtain ⟨tiles, htiling, hmem⟩ := Tiling.of_cover (T := p.Tile) (a := z.first * p.regionWords)
    (c := z.newTop p.regionWords p.objs) (fun o => hp.tile_pos) (fun o o' w => hp.tile_eq_of_covers)
    (fun o ho hcross => absurd (hin o ho (by have := hcross.1; omega) hcross.2).1
      (not_le.2 hcross.1))
    (fun o ho hcross => absurd
      (hp.tile_bounds hz ho (hin o ho (by have := hcross.1; omega) (by have := hcross.2; omega)))
      (not_le.2 hcross.2))
    hnew fun w h1 h2 => hp.exists_tile hz h1 h2
  refine ⟨tiles, htiling, fun o => (hmem o).trans (and_congr_right fun ho => ?_)⟩
  constructor
  · rintro ⟨h1, h2⟩
    exact ⟨h1, by omega⟩
  · intro hhas
    have hbounds := hp.tile_bounds hz ho hhas
    have hpos := hp.tile_pos ho
    rw [Span.past] at hbounds
    exact ⟨hhas.1, by omega⟩

end Valid

/-! ## Headers -/

variable {h : Heap MemoryImage}

/-- The header of an object stays the same. -/
lemma content_start (hp : p.Valid) (ho : o ∈ p.objs) :
    p.content p.objs o.start = p.memory o.start := by
  have hpos := hp.separate.words_pos o ho
  rw [content_of_mem hp.separate (fun _ => id) ho (Span.covers_start hpos), redirectWord,
    if_pos (Or.inl (Nat.sub_self _))]

namespace Compacted

variable (hc : p.Compacted h) (hp : p.FitsMemory)
include hc hp

/-- The header of an object is at its place. -/
lemma header_place (ho : o ∈ p.objs) :
    h.image.word p.covered (p.place o).start = p.memory o.start := by
  have hpos := hp.separate.words_pos o ho
  rw [← content_start hp.toValid ho]
  exact hc.placed o.start (live_of_mem ho (Span.covers_start hpos))

/-- The header of a tile says its size. -/
theorem objectWords_eq (hsound : p.Sound) (ho : p.Tile o) :
    h.image.objectWords (p.covered.addr o.start) = o.words := by
  show h.image.word p.covered o.start / sizeUnit = o.words
  rcases ho with ⟨q, hq, rfl⟩ | hole
  · rw [hc.header_place hp hq, ← (Shape.ofHeader_eq (hsound.shape_eq q hq)).1]
    exact hsound.words_eq q hq
  · rw [hc.filled o hole, MemoryImage.fillerHeader_div]

end Compacted

end Plan

end MarkCompact
