import MarkCompact.Compaction
import MarkCompact.Proofs.Moves
import MarkCompact.Proofs.Redirecting

/-!
# Compaction under way

`p.Underway g h` is what holds of a heap while compaction runs and has come as far as `g` says: the
tables hold the plan, every live word is intact where it is, with the references of the updated
objects redirected, starts of objects are recorded only where objects will be, and the closed holes
of the dense prefixes are fillers.  Each thing that compaction does to memory keeps it.

Main statements: `copyWords_runs`, `recordStart_runs`, `updateObject_runs` and `closeHole_runs`.
-/

namespace MarkCompact

variable {p : Plan} {filled' : ℕ → Prop} {updated : List Span} {o : Span} {z : Zone}
  {d i n s w x : ℕ}

/-- How far a compaction has come. -/
structure Progress where
  /-- The words that have received what belongs there. -/
  filled : ℕ → Prop
  /-- The words whose starts are recorded. -/
  noted : ℕ → Prop
  /-- The objects whose references have been redirected, last first. -/
  updated : List Span
  /-- The starts of holes that have become fillers. -/
  closed : ℕ → Prop

/-! ## Holes -/

/-- The span is all the dead space between two objects of the dense prefix, or between an object and
an end of it. -/
structure Zone.Hole (z : Zone) (W : ℕ) (objs : List Span) (o : Span) : Prop where
  first_le : z.first * W ≤ o.start
  past_le : o.past ≤ z.keep * W
  pos : 0 < o.words
  dead : Dead objs o.start o.past
  left : o.start = z.first * W ∨ Live objs (o.start - 1)
  right : o.past = z.keep * W ∨ Live objs o.past

namespace Zone.Hole

variable {W : ℕ} {objs : List Span}

lemma start_lt_past (hole : z.Hole W objs o) : o.start < o.past := by
  have hpos := hole.pos
  rw [Span.past]
  omega

/-- Holes of a dense prefix that share a word are the same. -/
lemma eq_of_covers {o' : Span} (hole : z.Hole W objs o) (hole' : z.Hole W objs o') (hx : o.Covers x)
    (hx' : o'.Covers x) :
    o = o' := by
  -- Neither reaches further to the left or to the right than the other.
  have hle : ∀ o o' : Span, z.Hole W objs o → z.Hole W objs o' → o.Covers x → o'.Covers x →
      o'.past ≤ o.past ∧ o.start ≤ o'.start := by
    intro o o' hole hole' hx hx'
    obtain ⟨hx1, hx2⟩ := hx
    obtain ⟨hx1', hx2'⟩ := hx'
    constructor
    · by_contra hlt
      rcases hole.right with hend | hlive
      · have := hole'.past_le
        omega
      · exact hole'.dead o.past (by omega) (by omega) hlive
    · by_contra hlt
      rcases hole.left with hend | hlive
      · have := hole'.first_le
        omega
      · exact hole'.dead (o.start - 1) (by omega) (by omega) hlive
  have h1 := hle o o' hole hole' hx hx'
  have h2 := hle o' o hole' hole hx' hx
  obtain ⟨start, words⟩ := o
  obtain ⟨start', words'⟩ := o'
  simp only [Span.past] at h1 h2
  obtain rfl : start = start' := by omega
  congr 1
  omega

end Zone.Hole

namespace Plan

/-- The span is a hole of a dense prefix. -/
def Hole (p : Plan) (o : Span) : Prop :=
  ∃ z ∈ p.zones, z.Hole p.regionWords p.objs o

/-- An object will start at the word once compaction has finished. -/
def FinalStart (p : Plan) (i : ℕ) : Prop :=
  (∃ o ∈ p.objs, p.forward o.start = i) ∨ ∃ o, p.Hole o ∧ o.start = i

/-- No live word goes into a hole. -/
lemma Hole.ne_forward (h : p.Hole o) (hp : p.Valid) (hx : o.Covers x) (hw : Live p.objs w) :
    p.forward w ≠ x := by
  obtain ⟨z, hz, hole⟩ := h
  obtain ⟨hx1, hx2⟩ := hx
  have hfirst := hole.first_le
  have hpast := hole.past_le
  have hkeep := (hp.ordered z hz).keep_le_top
  have htop := (hp.ordered z hz).top_le_last
  obtain ⟨z', hz', hhas, htop'⟩ := hp.exists_zone hw
  intro heq
  have hplace := hp.has_forward hz' hhas
  rw [heq] at hplace
  obtain rfl := hp.eq_of_has hz hz' ⟨by omega, by omega⟩ hplace
  rw [hp.forward_eq hz hhas, Zone.forward] at heq
  split at heq
  · exact hole.dead x hx1 hx2 (heq ▸ hw)
  · have := z.le_packed p.regionWords p.objs w
    omega

/-- Holes that share a word are the same. -/
lemma Hole.eq_of_covers {o' : Span} (h : p.Hole o) (h' : p.Hole o') (hp : p.Valid) (hx : o.Covers x)
    (hx' : o'.Covers x) :
    o = o' := by
  obtain ⟨z, hz, hole⟩ := h
  obtain ⟨z', hz', hole'⟩ := h'
  have hhas : ∀ (z : Zone), z ∈ p.zones → ∀ o : Span, z.Hole p.regionWords p.objs o → o.Covers x →
      z.Has p.regionWords x := by
    intro z hz o hole hx
    have h1 := hole.past_le
    have h2 := (hp.ordered z hz).keep_le_top
    have h3 := (hp.ordered z hz).top_le_last
    exact ⟨le_trans hole.first_le hx.1, lt_of_lt_of_le hx.2 (by omega)⟩
  obtain rfl := hp.eq_of_has hz hz' (hhas z hz o hole hx) (hhas z' hz' o' hole' hx')
  exact hole.eq_of_covers hole' hx hx'

/-- No live word goes to the word, and it lies in no hole. -/
def Spared (p : Plan) (x : ℕ) : Prop :=
  (∀ w, Live p.objs w → p.forward w ≠ x) ∧ ∀ o, p.Hole o → ¬o.Covers x

/-! ## Contents -/

/-- The shape that the header of an object says. -/
def shape (p : Plan) (o : Span) : Shape :=
  match Shape.ofHeader (p.memory o.start) with
  | .ok s => s
  | .error _ => {}

/-- What the live word `w` holds once the references of the objects in `updated` have been
redirected. -/
def content (p : Plan) (updated : List Span) (w : ℕ) : ℕ :=
  match updated.find? fun o => o.Covers w with
  | some o => p.redirectWord (p.shape o) (w - o.start) (p.memory w)
  | none => p.memory w

lemma content_cons (p : Plan) (o : Span) (updated : List Span) (w : ℕ) : p.content (o :: updated) w
    = if o.Covers w then p.redirectWord (p.shape o) (w - o.start)
      (p.memory w) else p.content updated w := by
  by_cases hcov : o.Covers w
  · rw [if_pos hcov, content, List.find?_cons_of_pos (by simpa using hcov)]
  · rw [if_neg hcov, content, List.find?_cons_of_neg (by simpa using hcov), content]

lemma content_of_not_mem (hsep : Separate p.objs) (hsub : ∀ o ∈ updated, o ∈ p.objs)
    (ho : o ∈ p.objs) (hnot : o ∉ updated) (hcov : o.Covers w) :
    p.content updated w = p.memory w := by
  have hnone : updated.find? (fun o => o.Covers w) = none := by
    rw [List.find?_eq_none]
    intro o' ho' hcov'
    have hcov' : o'.Covers w := by simpa using hcov'
    obtain rfl := hsep.eq_of_covers ho (hsub o' ho') hcov hcov'
    exact hnot ho'
  rw [content, hnone]

lemma content_of_mem (hsep : Separate p.objs) (hsub : ∀ o ∈ updated, o ∈ p.objs) (ho : o ∈ updated)
    (hcov : o.Covers w) : p.content updated w = p.redirectWord (p.shape o) (w - o.start)
    (p.memory w) := by
  cases hfound : updated.find? fun o => o.Covers w with
  | none => exact absurd hcov (by simpa using List.find?_eq_none.1 hfound o ho)
  | some o' =>
    have hcov' : o'.Covers w := by simpa using List.find?_some hfound
    obtain rfl :=
      hsep.eq_of_covers (hsub o ho) (hsub o' (List.mem_of_find?_eq_some hfound)) hcov hcov'
    rw [content, hfound]

/-- The objects have readable headers, and their references are null, point out of the spaces or at
live words. -/
structure Sound (p : Plan) : Prop where
  shape_eq : ∀ o ∈ p.objs, Shape.ofHeader (p.memory o.start) = .ok (p.shape o)
  words_eq : ∀ o ∈ p.objs, (p.shape o).totalWords = o.words
  refers : ∀ o ∈ p.objs, ∀ b ∈ (p.shape o).allPlaces o.start, p.Refers b (b.get (p.memory b.index))

/-! ## The invariant -/

/-- The references of the object were redirected when it was complete at its new place, and not
before. -/
structure Traces (p : Plan) (u : ℕ × MemoryImage) (o : Span) : Prop where
  place : u.1 = p.covered.addr (p.forward o.start)
  complete : ∀ k, k < o.words → u.2.word p.covered (p.forward o.start + k) = p.memory (o.start + k)

open Classical in
/-- What word `k` of the hole `o` holds while the holes that start in `closed` are fillers. -/
noncomputable def holeWord (p : Plan) (closed : ℕ → Prop) (o : Span) (k : ℕ) : ℕ :=
  if k = 0 ∧ closed o.start then MemoryImage.fillerHeader o.words else p.memory (o.start + k)

lemma holeWord_of_closed {closed : ℕ → Prop} (h : closed o.start) :
    p.holeWord closed o 0 = MemoryImage.fillerHeader o.words :=
  if_pos ⟨rfl, h⟩

lemma holeWord_congr {closed closed' : ℕ → Prop} {k : ℕ}
    (h : k = 0 → (closed o.start ↔ closed' o.start)) :
    p.holeWord closed o k = p.holeWord closed' o k := by
  unfold holeWord
  by_cases hclosed : k = 0 ∧ closed o.start
  · rw [if_pos hclosed, if_pos ⟨hclosed.1, (h hclosed.1).1 hclosed.2⟩]
  · rw [if_neg hclosed, if_neg fun hclosed' => hclosed ⟨hclosed'.1, (h hclosed'.1).2 hclosed'.2⟩]

/-- What holds of the heap while compaction runs and has come as far as `g` says. -/
structure Underway (p : Plan) (g : Progress) (h : Heap MemoryImage) : Prop where
  serves : p.Serves h
  backs : h.image.Backs p.covered
  moved : p.Moved (p.content g.updated) g.filled (h.image.word p.covered)
  subset : ∀ o ∈ g.updated, o ∈ p.objs
  nodup : g.updated.Nodup
  traced : List.Forall₂ p.Traces h.updates g.updated
  recorded : ∀ s ∈ h.spaces, s.starts.Between p.covered g.noted p.FinalStart
  holes : ∀ o, p.Hole o → ∀ k, k < o.words →
    h.image.word p.covered (o.start + k) = p.holeWord g.closed o k
  /-- A word to which nothing goes and that is in no hole is never written. -/
  spared : ∀ x, p.Spared x → h.image.word p.covered x = p.memory x

end Plan

namespace Heap

open Plan

variable {h : Heap MemoryImage} {f : Filling} {g : Progress}

lemma copyWords_runs (hu : p.Underway g h) (hp : p.Valid) (hsource : f.source = p.covered.addr s)
    (hdestination : f.destination = p.covered.addr d) (hpos : 0 < n)
    (hlive : ∀ i, i < n → Live p.objs (s + i)) (hforward : ∀ i, i < n → p.forward (s + i) = d + i)
    (hempty : ∀ i, i < n → ¬g.filled (d + i))
    (hsafe : ∀ w, Live p.objs w → d ≤ w → w < d + n → g.filled (p.forward w) ∨ (s ≤ w ∧ w < s + n))
    (hfilled : ∀ x, filled' x ↔ g.filled x ∨ (d ≤ x ∧ x < d + n)) :
    Runs (copyWords n f) h fun f' h' => p.Underway { g with filled := filled' } h'
      ∧ h'.table = h.table
      ∧ f' = { f.advance n with copied := if s = d then f.copied else f.copied + n } := by
  have hlast : s + n ≤ p.covered.words := by
    have := hu.serves.consistent.marks.live_lt (hlive (n - 1) (by omega))
    rw [hu.serves.bitmap_covered] at this
    omega
  have hle : d ≤ s := by
    have := hp.forward_le (hlive 0 hpos)
    rw [hforward 0 hpos] at this
    omega
  have hmoved : ∀ memory,
      (∀ x, memory x = if d ≤ x ∧ x < d + n then h.image.word p.covered (s + (x - d))
      else h.image.word p.covered x) → p.Moved (p.content g.updated) filled' memory :=
        fun memory hmemory =>
    hu.moved.copy hp hlive hforward hempty hsafe hfilled hmemory
  rw [copyWords]
  by_cases hsame : f.source = f.destination
  · rw [if_pos hsame, runs_pure]
    rw [hsource, hdestination, Extent.addr_inj] at hsame
    subst hsame
    refine ⟨{ hu with moved := hmoved _ fun x => ?_ }, rfl, by rw [if_pos rfl]; rfl⟩
    split
    case isTrue hin => rw [show s + (x - s) = x by omega]
    case isFalse => rfl
  · rw [if_neg hsame, runs_bind, runs_onImage_pure, runs_pure]
    rw [hsource, hdestination, Extent.addr_inj] at hsame
    have himage : ObjectModel.copyWords h.image f.source f.destination n
        = h.image.copyWords (p.covered.addr s) (p.covered.addr d) n := by
          rw [hsource, hdestination]; rfl
    have hwords := MemoryImage.word_copyWords hu.backs hlast (show d + n ≤ p.covered.words by omega)
    have hbacks := hu.backs.copyWords hlast (show d + n ≤ p.covered.words by omega)
    rw [himage]
    generalize h.image.copyWords (p.covered.addr s) (p.covered.addr d) n = image at hwords hbacks ⊢
    refine ⟨{ hu with
      serves := hu.serves.advance (.refl _ _) rfl rfl rfl hu.serves.spaces
      backs := hbacks
      moved := hmoved _ hwords
      holes := fun o ho k hk => ?_
      spared := fun x hx => ?_ }, rfl, by rw [if_neg hsame]⟩
    · show image.word p.covered (o.start + k) = _
      rw [hwords, if_neg, hu.holes o ho k hk]
      rintro ⟨h1, h2⟩
      refine ho.ne_forward hp (Span.covers_add hk) (hlive (o.start + k - d) (by omega)) ?_
      rw [hforward _ (by omega)]
      omega
    · show image.word p.covered x = _
      rw [hwords, if_neg, hu.spared x hx]
      rintro ⟨h1, h2⟩
      exact hx.1 _ (hlive (x - d) (by omega)) (by rw [hforward _ (by omega)]; omega)

lemma recordStart_runs (hu : p.Underway g h) (hp : p.Valid) (hz : p.zones[i]? = some z)
    (hhas : z.Has p.regionWords x) (hstart : p.FinalStart x) :
    Runs (onSpace i (·.recordStart (p.covered.addr x))) h fun _ h' =>
      p.Underway { g with noted := fun y => g.noted y ∨ y = x } h' ∧ h'.table = h.table
        ∧ h'.image = h.image := by
  obtain ⟨s, hs, hmatches⟩ := hu.serves.exists_space hz
  obtain ⟨starts, heq, hcovered, hrecord⟩ := hmatches.toOver.recordStart_eq hhas.1 hhas.2
  have hbetween := hrecord _ _ (hu.recorded s (List.mem_of_getElem? hs)) hstart
  refine (runs_onSpace hs heq).2 ⟨{ hu with
    serves := hu.serves.setSpace hz hs hcovered
    recorded := ?_ }, rfl, rfl⟩
  intro s' hs'
  obtain ⟨j, hj⟩ := List.mem_iff_getElem?.1 hs'
  rw [show (h.setSpace i { s with starts }).spaces[j]?
    = (h.spaces.set i { s with starts })[j]? from rfl, List.getElem?_set] at hj
  by_cases hij : i = j
  · subst hij
    rw [if_pos rfl, if_pos (List.getElem?_eq_some_iff.1 hs).1] at hj
    cases hj
    exact hbetween
  · rw [if_neg hij] at hj
    -- The word lies outside of the other space.
    obtain ⟨z', hz', hmatches'⟩ := hu.serves.exists_zone hj
    refine hmatches'.starts.between_outside (hu.recorded s' (List.mem_of_getElem? hj)) fun hin => ?_
    exact hij (hp.index_eq hz hz' hhas hin)

/-- An object that has arrived is updated. -/
theorem updateObject_runs (hu : p.Underway g h) (hp : p.FitsMemory) (hsound : p.Sound)
    (ho : o ∈ p.objs) (hnot : o ∉ g.updated)
    (harrived : ∀ k, k < o.words → p.location g.filled (o.start + k) = p.forward o.start + k) :
    Runs (updateContents (p.covered.addr (p.forward o.start))) h fun _ h' =>
      p.Underway { g with updated := o :: g.updated } h'
        ∧ RegionTable.Refilled p.objs h.table h'.table
        ∧ ∀ x, ¬(p.forward o.start ≤ x ∧ x < p.forward o.start + o.words) →
          h'.image.word p.covered x = h.image.word p.covered x := by
  have hsep := hp.separate
  have hpos := hsep.words_pos o ho
  have hcov : ∀ k, k < o.words → o.Covers (o.start + k) :=
    fun k hk => ⟨Nat.le_add_right .., by rw [Span.past]; omega⟩
  -- The words of the object are as they were before compaction.
  have hwords : ∀ k, k < o.words →
      h.image.word p.covered (p.forward o.start + k) = p.memory (o.start + k) := by
    intro k hk
    rw [← harrived k hk, hu.moved.intact _ (live_of_mem ho (hcov k hk)),
      content_of_not_mem hsep hu.subset ho hnot (hcov k hk)]
  have hshape : Shape.ofHeader (h.image.word p.covered (p.forward o.start)) = .ok (p.shape o) := by
    have hheader := hwords 0 hpos
    rw [Nat.add_zero, Nat.add_zero] at hheader
    rw [hheader, hsound.shape_eq o ho]
  have hsize := hsound.words_eq o ho
  have hlast : p.forward o.start + o.words ≤ p.covered.words := by
    have hlive := live_of_mem ho (hcov (o.words - 1) (by omega))
    have hle := hp.forward_le hlive
    have hlt := hu.serves.consistent.marks.live_lt hlive
    rw [hp.forward_add ho (by omega)] at hle
    rw [hu.serves.bitmap_covered] at hlt
    omega
  have hrefers : ∀ b ∈ (p.shape o).allPlaces (p.forward o.start),
      p.Refers b (h.image.value p.covered b) := by
    intro b hb
    rw [Shape.allPlaces_eq] at hb
    obtain ⟨b, hmem, rfl⟩ := List.mem_map.1 hb
    have hold :=
      hsound.refers o ho (b.behind o.start)
        (by rw [Shape.allPlaces_eq]; exact List.mem_map_of_mem hmem)
    have hindex := Shape.index_of_mem_allPlaces hmem
    have hfixed := (p.shape o).fixedWords_le
    rw [refers_behind, Place.get_behind, Place.index_behind, ← hwords _ (by omega)] at hold
    rw [refers_behind, MemoryImage.value, Place.get_behind, Place.index_behind]
    exact hold
  refine (updateContents_runs hp hu.serves hu.backs hshape (by omega) hrefers).mono fun _ h' => ?_
  rintro ⟨t, image, rfl, hrefilled, hbacks, hdone, hkept⟩
  rw [hsize] at hkept
  refine ⟨⟨hu.serves.advance hrefilled.advances rfl rfl rfl hu.serves.spaces, hbacks, ?_, ?_, ?_,
    ?_, hu.recorded, ?_, ?_⟩, hrefilled, hkept⟩
  · refine hu.moved.update hp.toValid ho harrived (fun k hk => ?_) (fun w hw => ?_) hkept
    · show image.word p.covered (p.forward o.start + k) = _
      rw [hdone k, hwords k hk, content_cons, if_pos (hcov k hk), Nat.add_sub_cancel_left]
    · rw [content_cons, if_neg hw]
  · exact List.forall_mem_cons.2 ⟨ho, hu.subset⟩
  · exact List.nodup_cons.2 ⟨hnot, hu.nodup⟩
  · exact .cons ⟨rfl, hwords⟩ hu.traced
  · intro o' ho' j hj
    show image.word p.covered (o'.start + j) = _
    rw [hkept, hu.holes o' ho' j hj]
    rintro ⟨h1, h2⟩
    have hk : o'.start + j - p.forward o.start < o.words := by omega
    refine ho'.ne_forward hp.toValid (Span.covers_add hj) (live_of_mem ho (hcov _ hk)) ?_
    rw [hp.forward_add ho hk]
    omega
  · intro x hx
    show image.word p.covered x = _
    rw [hkept, hu.spared x hx]
    rintro ⟨h1, h2⟩
    have hk : x - p.forward o.start < o.words := by omega
    exact hx.1 _ (live_of_mem ho (hcov _ hk)) (by rw [hp.forward_add ho hk]; omega)

/-- A header of a filler is written to the start of a hole. -/
lemma closeHole_underway (hu : p.Underway g h) (hp : p.Valid) (hhole : p.Hole o)
    (hpos : 0 < o.words) (hdead : ¬Live p.objs o.start) {image : MemoryImage}
    (hbacks : image.Backs p.covered) (hword : ∀ x, image.word p.covered x
      = if o.start = x then MemoryImage.fillerHeader o.words else h.image.word p.covered x) :
    p.Underway { g with closed := fun y => g.closed y ∨ y = o.start } { h with image } := { hu with
  serves := hu.serves.advance (.refl _ _) rfl rfl rfl hu.serves.spaces
  backs := hbacks
  moved := hu.moved.write fun x hx w hw => by
    have hx : x = o.start := by
      by_contra hne
      exact hx (by rw [hword, if_neg (Ne.symm hne)])
    subst hx
    rw [location]
    split
    · exact hhole.ne_forward hp (Span.covers_start hpos) hw
    · rintro rfl
      exact hdead hw
  holes := fun o' ho' k hk => by
    show image.word p.covered (o'.start + k) = _
    rw [hword, hu.holes o' ho' k hk]
    by_cases heq : o.start = o'.start + k
    · -- Holes that share a word are the same.
      obtain rfl := hhole.eq_of_covers ho' hp (Span.covers_start hpos) (heq ▸ Span.covers_add hk)
      obtain rfl : k = 0 := by omega
      rw [if_pos heq, holeWord_of_closed (Or.inr rfl)]
    · rw [if_neg heq]
      exact holeWord_congr fun hk =>
        (or_iff_left fun hstart => heq (by rw [hk, hstart, Nat.add_zero])).symm
  spared := fun x hx => by
    show image.word p.covered x = _
    rw [hword, if_neg, hu.spared x hx]
    rintro rfl
    exact hx.2 o hhole (Span.covers_start hpos) }

/-- A hole of a dense prefix becomes a filler. -/
theorem closeHole_runs (hu : p.Underway g h) (hp : p.FitsMemory) (hz : p.zones[i]? = some z)
    (hole : z.Hole p.regionWords p.objs o) :
    Runs (fillGap i (o.run p.covered)) h fun _ h' =>
      p.Underway { g with
        noted := fun y => g.noted y ∨ y = o.start
        closed := fun y => g.closed y ∨ y = o.start } h'
        ∧ h'.table = h.table := by
  have hzone := hp.ordered z (List.mem_of_getElem? hz)
  have hhole : p.Hole o := ⟨z, List.mem_of_getElem? hz, hole⟩
  have hpos := hole.pos
  have hpast := hole.past_le
  have hkeep := hzone.keep_le_top
  have htop := hzone.top_le_last
  have hlast := hzone.last_le
  have hlt := hp.words_lt
  rw [Span.past] at hpast
  have hhas : z.Has p.regionWords o.start := ⟨hole.first_le, by omega⟩
  have hfill : h.image.fillDead (p.covered.addr o.start) o.words
      = .ok (h.image.setWord (p.covered.addr o.start) (MemoryImage.fillerHeader o.words)) :=
    MemoryImage.fillDead_eq hpos (by omega)
  have hword :=
    MemoryImage.word_setWord hu.backs (show o.start < p.covered.words by omega)
      (MemoryImage.fillerHeader o.words)
  have hbacks := hu.backs.setWord (show o.start < p.covered.words by omega)
    (MemoryImage.fillerHeader_lt (show o.words < sizeLimit by omega))
  rw [fillGap, runs_bind, runs_onImage hfill]
  generalize h.image.setWord (p.covered.addr o.start) (MemoryImage.fillerHeader o.words) = image
    at hword hbacks ⊢
  have hu₁ :=
    closeHole_underway hu hp.toValid hhole hpos
      (hole.dead o.start (le_refl _) (by rw [Span.past]; omega)) hbacks hword
  obtain ⟨n, hn⟩ : ∃ n, o.words = n + 1 := ⟨o.words - 1, by omega⟩
  have hsize : ObjectModel.objectWords image (p.covered.addr o.start) = o.words := by
    show image.word p.covered o.start / sizeUnit = _
    rw [hword, if_pos rfl, MemoryImage.fillerHeader_div]
  show Runs (recordFillers i (p.covered.addr o.start + bytesPerWord * o.words) o.words
    (p.covered.addr o.start)) _ _
  rw [hn, recordFillers, if_pos (by rw [bytesPerWord]; omega), runs_bind]
  refine (recordStart_runs hu₁ hp.toValid hz hhas (Or.inr ⟨o, hhole, rfl⟩)).mono fun _ h₂ => ?_
  rintro ⟨hu₂, htable, himage⟩
  simp only [runs_bind, runs_get]
  rw [himage, hsize, ← hn]
  -- The filler reaches to the end of the hole.
  have hstop : ∀ tries addr, Runs (recordFillers i addr tries addr) h₂ fun _ h' =>
      p.Underway { g with
        noted := fun y => g.noted y ∨ y = o.start
        closed := fun y => g.closed y ∨ y = o.start } h'
        ∧ h'.table = h.table := by
    intro tries addr
    cases tries with
    | zero => exact runs_pure.2 ⟨hu₂, htable⟩
    | succ tries =>
      rw [recordFillers, if_neg (lt_irrefl _), runs_pure]
      exact ⟨hu₂, htable⟩
  exact hstop n _

end Heap

end MarkCompact
