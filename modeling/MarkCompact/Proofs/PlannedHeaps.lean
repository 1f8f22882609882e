import MarkCompact.Proofs.Redirecting
import MarkCompact.Proofs.Spaces

/-!
# Planned heaps

`h.Marked objs zones` is what holds of a heap once the live objects are marked: nothing is planned.
Planning goes from space to space, and `h.PlannedThrough h' n` says what the heap `h'` holds when
the first `n` spaces of `h` have been planned around any dense prefixes,
`h.PlannedTo limiter maximum h' n` when they have been planned around those that are chosen.

Main statement: `planSpaces_runs` (planning never fails, and the table holds a plan that has not
been carried out).
-/

namespace MarkCompact

variable {objs fillers : List Span} {zones zones' : List Zone} {o : Span} {z z' : Zone} {W r : ℕ}

/-- An object of one zone has no word in another. -/
lemma Zone.Holds.misses (h : z.Holds W o) {words : ℕ} (hz : z.Ordered W words)
    (hapart : z.Apart z') : z'.Misses W o := by
  have htop := hz.top_le_last
  obtain ⟨h1, h2⟩ := h
  rcases hapart with hle | hle
  · have := Nat.mul_le_mul_right W hle
    exact Or.inl (by omega)
  · have := Nat.mul_le_mul_right W hle
    exact Or.inr (by omega)

/-- A host that can close gaps of at least `minimum` words, whatever memory holds. -/
structure ClosesGaps (μ : Type) [ObjectModel μ] (minimum : ℕ) : Prop where
  minimum_eq : ∀ image : μ, ObjectModel.minimumWords image = minimum
  fillDead_eq : ∀ (image : μ) addr words, minimum ≤ words → 0 < words →
    ∃ image', ObjectModel.fillDead image addr words = .ok image'

/-- A filler of a memory of self-describing objects takes one word. -/
lemma MemoryImage.closesGaps : ClosesGaps MemoryImage 1 where
  minimum_eq _ := rfl
  fillDead_eq image addr words _ hpos :=
    ⟨_, by simp only [ObjectModel.fillDead, MemoryImage.fillDead, if_neg (Nat.ne_of_gt hpos)]; rfl⟩

/-- The image after the fillers have been written, the last one first. -/
inductive Closed {μ : Type} [ObjectModel μ] (e : Extent) (image : μ) : List Span → μ → Prop
  | nil : Closed e image [] image
  | cons {image' image'' : μ} {fillers : List Span} {o : Span} (h : Closed e image fillers image')
      (eq : ObjectModel.fillDead image' (e.addr o.start) o.words = .ok image'') :
      Closed e image (o :: fillers) image''

namespace Heap

variable {μ : Type} [ObjectModel μ] {h h' h'' : Heap μ} {n : ℕ} {limiter : Limiter} {maximum : Bool}

omit [ObjectModel μ] in
/-- The live objects are marked, and nothing is planned. -/
structure Marked (h : Heap μ) (objs : List Span) (zones : List Zone) : Prop where
  consistent : h.Consistent objs
  spaces_over : List.Forall₂
    (fun s z => s.Over h.table.covered h.table.geometry.regionWords z) h.spaces zones
  ordered : ∀ z ∈ zones, z.Ordered h.table.geometry.regionWords h.table.covered.words
  keep_eq : ∀ z ∈ zones, z.keep = z.first
  apart : zones.Pairwise Zone.Apart
  holds : ∀ o ∈ objs, ∃ z ∈ zones, z.Holds h.table.geometry.regionWords o
  blank : ∀ r, h.table.regions.get r = {}

omit [ObjectModel μ] in
/-- The live objects are marked, and no space is planned.  Regions outside of the spaces need not be
empty, only without partial objects. -/
structure Unplanned (h : Heap μ) (objs : List Span) (zones : List Zone) : Prop where
  consistent : h.Consistent objs
  spaces_over : List.Forall₂
    (fun s z => s.Over h.table.covered h.table.geometry.regionWords z) h.spaces zones
  ordered : ∀ z ∈ zones, z.Ordered h.table.geometry.regionWords h.table.covered.words
  keep_eq : ∀ z ∈ zones, z.keep = z.first
  apart : zones.Pairwise Zone.Apart
  holds : ∀ o ∈ objs, ∃ z ∈ zones, z.Holds h.table.geometry.regionWords o
  blank : ∀ z ∈ zones, ∀ r, z.first ≤ r → r < z.last → h.table.regions.get r = {}
  outside : ∀ r, (∀ z ∈ zones, ¬(z.first ≤ r ∧ r < z.last)) →
    (h.table.regions.get r).partialWords = 0

omit [ObjectModel μ] in
lemma Marked.unplanned (hm : h.Marked objs zones) : h.Unplanned objs zones :=
  { hm with
    blank := fun _ _ r _ _ => hm.blank r
    outside := fun r _ => by rw [hm.blank r] }

/-- The heap `h'` is `h` with the first `n` spaces planned as the zones `zones'`, for the objects
and some fillers.  Whatever dense prefixes the zones have, the fillers are those that close them. -/
structure PlannedThrough (h h' : Heap μ) (n : ℕ) (objs fillers : List Span)
    (zones zones' : List Zone) : Prop where
  covered : h'.covered = h.covered
  geometry : h'.geometry = h.geometry
  updates : h'.updates = h.updates
  consistent : h'.Consistent (fillers ++ objs)
  shape : h.table.SameShape h'.table
  length_eq : zones'.length = zones.length
  /-- A zone keeps its bounds. -/
  zone_at : ∀ (j : ℕ) (z' : Zone), zones'[j]? = some z' → ∃ z : Zone, zones[j]? = some z
    ∧ z' = { z with keep := z'.keep }
  ordered : ∀ z ∈ zones', z.Ordered h.table.geometry.regionWords h.table.covered.words
  planned : ∀ j z, j < n → zones'[j]? = some z → h'.table.Ready (fillers ++ objs) z
    ∧ h'.table.Untouched (fillers ++ objs) z
    ∧ ∃ s, h'.spaces[j]? = some s
    ∧ s.Matches h.table.covered h.table.geometry.regionWords (fillers ++ objs) z
  spaces_length : h'.spaces.length = h.spaces.length
  rest : ∀ j, n ≤ j → h'.spaces[j]? = h.spaces[j]? ∧ zones'[j]? = zones[j]?
  blank : ∀ j z, n ≤ j → zones[j]? = some z → ∀ r, z.first ≤ r → r < z.last →
    h'.table.regions.get r = {}
  outside : ∀ r, (∀ z ∈ zones, ¬(z.first ≤ r ∧ r < z.last)) →
    h'.table.regions.get r = h.table.regions.get r
  /-- Fillers start in dense prefixes of spaces that have been planned. -/
  starts_lt : ∀ o ∈ fillers, ∃ (j : ℕ) (z : Zone), j < n ∧ zones'[j]? = some z
    ∧ z.Holds h.table.geometry.regionWords o
    ∧ o.start < z.keep * h.table.geometry.regionWords
  fillers_eq : fillers = (zones'.take n).reverse.flatMap fun z =>
    z.fillers h.table.geometry.regionWords (ObjectModel.minimumWords h.image) objs
  tallied : ∀ (j : ℕ) (s s' : Space) (z' : Zone), j < n → h.spaces[j]? = some s →
    h'.spaces[j]? = some s' →
    zones'[j]? = some z' → s.Tallied s' h.table.geometry.regionWords objs z'
  image : Closed h.table.covered h.image fillers h'.image
  starts : ∀ (j : ℕ) (s s' : Space), h.spaces[j]? = some s → h'.spaces[j]? = some s' →
    ∀ must may : ℕ → Prop,
    s.starts.Between h.table.covered must may → (∀ o ∈ fillers, may o.start) →
    s'.starts.Between h.table.covered must may

/-- The zones are those that planning decides on. -/
structure PlannedTo (limiter : Limiter) (maximum : Bool) (h h' : Heap μ) (n : ℕ)
    (objs fillers : List Span) (zones zones' : List Zone) :
    Prop extends h.PlannedThrough h' n objs fillers zones zones' where
  chosen : ∀ (j : ℕ) (s : Space) (z z' : Zone), j < n → h.spaces[j]? = some s → zones[j]? = some z →
    zones'[j]? = some z' →
    z'.keep = z.chosen h.table.covered h.table.geometry objs s.deadRatio limiter maximum

omit [ObjectModel μ] in
/-- The order of the objects does not matter. -/
lemma Unplanned.perm (hm : h.Unplanned objs zones) {os : List Span} (hperm : objs.Perm os) :
    h.Unplanned os zones :=
  { hm with
    consistent := { hm.consistent with marks := hm.consistent.marks.perm hperm }
    holds := fun o ho => hm.holds o (hperm.mem_iff.2 ho) }

omit [ObjectModel μ] in
lemma Unplanned.liesOver (hm : h.Unplanned objs zones) :
    h.LiesOver h.table.geometry.regionWords zones where
  spaces_over := hm.consistent.covered ▸ hm.spaces_over
  ordered := hm.consistent.covered ▸ hm.ordered
  apart := hm.apart

/-- At first no space is planned. -/
lemma Unplanned.plannedThrough (hm : h.Unplanned objs zones) :
    h.PlannedThrough h 0 objs [] zones zones where
  covered := rfl
  geometry := rfl
  updates := rfl
  consistent := hm.consistent
  shape := .refl _
  length_eq := rfl
  zone_at _ z' hz' := ⟨z', hz', rfl⟩
  ordered := hm.ordered
  planned _ _ hj := absurd hj (Nat.not_lt_zero _)
  spaces_length := rfl
  rest _ _ := ⟨rfl, rfl⟩
  blank _ z _ hz := hm.blank z (List.mem_of_getElem? hz)
  outside _ _ := rfl
  starts_lt o ho := absurd ho List.not_mem_nil
  fillers_eq := rfl
  tallied _ _ _ _ hj := absurd hj (Nat.not_lt_zero _)
  image := .nil
  starts j s s' hs hs' must may hbetween _ := by
    rw [hs] at hs'
    cases hs'
    exact hbetween

/-- No choice has been made yet either. -/
lemma Unplanned.plannedTo (hm : h.Unplanned objs zones) :
    h.PlannedTo limiter maximum h 0 objs [] zones zones :=
  { hm.plannedThrough with chosen := fun _ _ _ _ hj => absurd hj (Nat.not_lt_zero _) }

namespace PlannedThrough

variable {objs' : List Span} {s : Space} {j k : ℕ}

/-- What planning one more space does to the fillers. -/
lemma fillers_step (hp : h.PlannedThrough h' n objs fillers zones zones')
    (hplanned : h'.SpacePlanned h'' n s (fillers ++ objs) objs' z) :
    ∃ fillers', objs' = fillers' ++ objs
      ∧ Closed h.table.covered h.image fillers' h''.image
      ∧ (∀ o ∈ fillers', o ∈ fillers
        ∨ z.Holds h.table.geometry.regionWords o ∧ o.start < z.keep * h.table.geometry.regionWords)
      ∧ (∀ o ∈ fillers, o ∈ fillers')
      ∧ ∀ z', z.Apart z' → z.Ordered h.table.geometry.regionWords h.table.covered.words →
        z'.Agree h.table.geometry.regionWords (fillers ++ objs) (fillers' ++ objs) := by
  have hcovered := hp.shape.covered
  have hgeometry := hp.shape.geometry
  have himage := hplanned.image
  rw [hcovered] at himage
  generalize heq : fillers ++ objs = os at hplanned himage
  have hfilled := hplanned.filled
  rw [hgeometry] at hfilled
  cases hfilled with
  | whole _ =>
    refine ⟨fillers, heq.symm, ?_, fun o ho => Or.inl ho, fun _ ho => ho,
      fun z' _ _ => heq ▸ .refl _ _ _⟩
    rcases himage with ⟨_, hsame⟩ | ⟨o, hcons, _⟩
    · rw [hsame]
      exact hp.image
    · exact absurd (congrArg List.length hcons) (by simp)
  | filled o _ filler =>
    refine ⟨o :: fillers, by rw [List.cons_append, heq], ?_, ?_,
      fun _ ho => List.mem_cons_of_mem _ ho, fun z' hapart hz => ?_⟩
    · rcases himage with ⟨hcons, _⟩ | ⟨o', hcons, hfill⟩
      · exact absurd (congrArg List.length hcons) (by simp)
      · cases hcons
        exact .cons hp.image hfill
    · intro o' ho'
      rcases List.mem_cons.1 ho' with rfl | hin
      · exact Or.inr ⟨filler.holds, filler.start_lt⟩
      · exact Or.inl hin
    · rw [List.cons_append, heq]
      exact .cons_of_misses (filler.holds.misses hz hapart)

/-- The plan of a zone that has been planned stands while another one is planned. -/
lemma planned_step (hp : h.PlannedThrough h' n objs fillers zones zones') {fillers' : List Span}
    (hplanned : h'.SpacePlanned h'' n s (fillers ++ objs) (fillers' ++ objs) z)
    (hagree : z'.Agree h.table.geometry.regionWords (fillers ++ objs) (fillers' ++ objs))
    (hapart : z.Apart z') (hz' : z'.Ordered h.table.geometry.regionWords h.table.covered.words)
    (hready : h'.table.Ready (fillers ++ objs) z')
    (huntouched : h'.table.Untouched (fillers ++ objs) z') :
    h''.table.Ready (fillers' ++ objs) z' ∧ h''.table.Untouched (fillers' ++ objs) z' := by
  have hgeometry := hp.shape.geometry
  obtain ⟨t, hshape, hblocks, hrefilled, hregions⟩ := hplanned.refilled
  have hlaid := hp.consistent.laid
  rw [← hgeometry] at hagree
  rw [← hgeometry, ← hp.shape.covered] at hz'
  have hsame : ∀ r, z'.first ≤ r → r < z'.last → t.regions.get r = h'.table.regions.get r :=
    fun r h1 h2 => by
    refine hregions r ?_ ?_
    · have hlast := hz'.last_le
      rw [hlaid.covered_words] at hlast
      exact lt_of_lt_of_le h2 (Nat.le_of_mul_le_mul_right hlast h'.table.geometry.regionWords_pos)
    · rcases hapart with hle | hle <;> omega
  exact ⟨(hready.congr hagree hz' hshape.geometry hsame hp.consistent.marks.separate
    hplanned.consistent.marks.separate
      hshape.covered hblocks).advance hrefilled.advances,
    (huntouched.congr hagree hz' hshape.geometry hsame).refilled hrefilled⟩

/-- The next zone is apart from the others, wherever its dense prefix ends. -/
lemma apart_next (hp : h.PlannedThrough h' n objs fillers zones zones')
    (hapart : zones.Pairwise Zone.Apart) (hz : zones[n]? = some z) (hne : n ≠ j)
    (hz' : zones'[j]? = some z') : ({ z with keep := k } : Zone).Apart z' := by
  obtain ⟨z₀, hz₀, heq⟩ := hp.zone_at j z' hz'
  have hapart₀ := Zone.apart_of_ne hapart hz hz₀ hne
  rw [heq]
  exact hapart₀

/-- It holds no filler yet. -/
lemma held_next (hp : h.PlannedThrough h' n objs fillers zones zones')
    (hapart : zones.Pairwise Zone.Apart) (hz : zones[n]? = some z)
    (hzk : ({ z with keep := k } : Zone).Ordered h.table.geometry.regionWords
      h.table.covered.words) :
    Zone.held { z with keep := k } h.table.geometry.regionWords fillers = [] :=
  Zone.held_of_misses hzk hp.consistent.marks.separate.of_append_left fun o ho => by
    obtain ⟨i, z₀, hi, hz₀, hholds, _⟩ := hp.starts_lt o ho
    exact hholds.misses (hp.ordered z₀ (List.mem_of_getElem? hz₀))
      (hp.apart_next hapart hz (by omega) hz₀).symm

/-- Planning one more space. -/
theorem step (hp : h.PlannedThrough h' n objs fillers zones zones')
    (hapart : zones.Pairwise Zone.Apart) (hz : zones[n]? = some z) (hs : h.spaces[n]? = some s)
    (hagree : z.Agree h.table.geometry.regionWords objs (fillers ++ objs)) (hsep : Separate objs)
    (hminimum : ObjectModel.minimumWords h'.image = ObjectModel.minimumWords h.image)
    (hzk : ({ z with keep := k } : Zone).Ordered h.table.geometry.regionWords h.table.covered.words)
    (hplanned : h'.SpacePlanned h'' n s (fillers ++ objs) objs' { z with keep := k }) :
    ∃ fillers', h.PlannedThrough h'' (n + 1) objs fillers' zones
      (zones'.set n { z with keep := k }) := by
  have hcovered := hp.shape.covered
  have hgeometry := hp.shape.geometry
  have hfillers :=
    hplanned.filled.eq_append hplanned.crossed (by rw [hgeometry]; exact hagree.withKeep k) hsep
    hp.consistent.marks.separate (by rw [hgeometry]; exact hzk) h'.table.geometry.regionWords_pos
      hplanned.keep_lt
  obtain ⟨fillers', rfl, himage, hnew, hold, hother'⟩ := hp.fillers_step hplanned
  obtain ⟨s', hspaces, hmatches, htallied, hstarts⟩ := hplanned.spaces
  rw [hgeometry, hminimum, ← List.append_assoc, List.append_left_inj] at hfillers
  rw [hcovered, hgeometry] at hmatches
  rw [hgeometry] at htallied
  rw [hcovered] at hstarts
  have hlen : n < zones'.length := by
    rw [hp.length_eq]
    exact (List.getElem?_eq_some_iff.1 hz).1
  have hlenSpaces : n < h'.spaces.length := by
    rw [hp.spaces_length]
    exact (List.getElem?_eq_some_iff.1 hs).1
  have hzones : ∀ j, (zones'.set n { z with keep := k })[j]?
      = if n = j then some { z with keep := k } else zones'[j]? := fun j => by
    rw [List.getElem?_set, if_pos hlen]
  have hspaceAt : ∀ j, h''.spaces[j]? = if n = j then some s' else h'.spaces[j]? := fun j => by
    rw [hspaces, List.getElem?_set, if_pos hlenSpaces]
  have hother₁ : ∀ r, ¬(z.first ≤ r ∧ r < z.last) →
      h''.table.regions.get r = h'.table.regions.get r :=
    fun _ => hplanned.region_eq hp.consistent.laid
  refine ⟨fillers', ?_⟩
  constructor
  case covered => exact hplanned.covered.trans hp.covered
  case geometry => exact hplanned.geometry.trans hp.geometry
  case updates => exact hplanned.updates.trans hp.updates
  case consistent => exact hplanned.consistent
  case shape => exact hp.shape.trans hplanned.sameShape
  case length_eq => rw [List.length_set, hp.length_eq]
  case zone_at =>
    intro j z' hz'
    rw [hzones] at hz'
    split at hz'
    case isTrue heq =>
      cases hz'
      exact ⟨z, heq ▸ hz, rfl⟩
    case isFalse => exact hp.zone_at j z' hz'
  case ordered =>
    intro z' hz'
    rcases List.mem_or_eq_of_mem_set hz' with hin | rfl
    · exact hp.ordered z' hin
    · exact hzk
  case planned =>
    intro j z' hj hz'
    rw [hzones] at hz'
    rw [hspaceAt]
    split at hz'
    case isTrue heq =>
      cases hz'
      rw [if_pos heq]
      exact ⟨hplanned.ready, hplanned.untouched, s', rfl, hmatches⟩
    case isFalse hne =>
      obtain ⟨hready, huntouched, s₀, hs₀, hmatches₀⟩ := hp.planned j z' (by omega) hz'
      have hord' := hp.ordered z' (List.mem_of_getElem? hz')
      have hapart' : ({ z with keep := k } : Zone).Apart z' := hp.apart_next hapart hz hne hz'
      have hag := hother' z' hapart' hzk
      rw [if_neg hne]
      obtain ⟨hready', huntouched'⟩ := hp.planned_step hplanned hag hapart' hord' hready huntouched
      exact ⟨hready', huntouched', s₀, hs₀, hmatches₀.agree hag hord'⟩
  case spaces_length => rw [hspaces, List.length_set, hp.spaces_length]
  case rest =>
    intro j hj
    rw [hzones, hspaceAt, if_neg (by omega), if_neg (by omega)]
    exact hp.rest j (by omega)
  case blank =>
    intro j z' hj hz' r h1 h2
    have hapart' := Zone.apart_of_ne hapart hz hz' (by omega)
    rw [hother₁ r fun hin => by rcases hapart' with hle | hle <;> omega]
    exact hp.blank j z' (by omega) hz' r h1 h2
  case outside =>
    exact fun r hr => (hother₁ r (hr z (List.mem_of_getElem? hz))).trans (hp.outside r hr)
  case starts_lt =>
    intro o ho
    rcases hnew o ho with hin | hin
    · obtain ⟨j, z', hj, hz', hlow⟩ := hp.starts_lt o hin
      exact ⟨j, z', by omega, by rw [hzones, if_neg (by omega), hz'], hlow⟩
    · exact ⟨n, _, Nat.lt_succ_self n, by rw [hzones, if_pos rfl], hin⟩
  case fillers_eq =>
    rw [List.take_add_one, hzones, if_pos rfl, Option.toList_some, List.reverse_append,
      List.reverse_singleton, List.singleton_append, List.flatMap_cons,
      List.take_set_of_le (le_refl n), ← hp.fillers_eq]
    exact hfillers
  case tallied =>
    intro j s₁ s₂ z₁ hj hs₁ hs₂ hz₁
    rw [hspaceAt] at hs₂
    rw [hzones] at hz₁
    split at hs₂
    case isTrue heq =>
      subst heq
      cases hs.symm.trans hs₁
      cases hs₂
      rw [if_pos rfl] at hz₁
      cases hz₁
      exact htallied.of_append (hp.held_next hapart hz hzk)
    case isFalse hne =>
      rw [if_neg hne] at hz₁
      exact hp.tallied j s₁ s₂ z₁ (by omega) hs₁ hs₂ hz₁
  case image => exact himage
  case starts =>
    intro j s₁ s₂ hs₁ hs₂ must may hbetween hmay
    rw [hspaceAt] at hs₂
    split at hs₂
    case isTrue heq =>
      cases hs₂
      subst heq
      rw [hs] at hs₁
      cases hs₁
      refine hstarts must may hbetween fun o ho hnot => ?_
      rcases List.mem_append.1 ho with hin | hin
      · exact hmay o hin
      · exact absurd (List.mem_append_right _ hin) hnot
    case isFalse => exact hp.starts j s₁ s₂ hs₁ hs₂ must may hbetween fun o ho => hmay o (hold o ho)

/-- Fillers lie in spaces that have been planned. -/
lemma holds (hp : h.PlannedThrough h' n objs fillers zones zones') {o : Span} (ho : o ∈ fillers) :
    ∃ (j : ℕ) (z : Zone), j < n ∧ zones[j]? = some z ∧ z.Holds h.table.geometry.regionWords o := by
  obtain ⟨j, z', hj, hz', hholds, _⟩ := hp.starts_lt o ho
  obtain ⟨z, hz, heq⟩ := hp.zone_at j z' hz'
  rw [heq] at hholds
  exact ⟨j, z, hj, hz, hholds⟩

/-- Fillers lie outside of the spaces that have not been planned. -/
lemma agree (hp : h.PlannedThrough h' n objs fillers zones zones') (hm : h.Unplanned objs zones)
    (hz : zones[n]? = some z) :
    z.Agree h.table.geometry.regionWords objs (fillers ++ objs) := by
  intro o h1 h2
  rw [List.mem_append]
  refine (or_iff_right fun ho => ?_).symm
  obtain ⟨j, z', hj, hz', hholds⟩ := hp.holds ho
  have hmiss :=
    hholds.misses (hm.ordered z' (List.mem_of_getElem? hz'))
      (Zone.apart_of_ne hm.apart hz' hz (by omega))
  rcases hmiss with hle | hle <;> omega

lemma apart (hp : h.PlannedThrough h' n objs fillers zones zones') (hm : h.Unplanned objs zones) :
    zones'.Pairwise Zone.Apart := by
  refine List.pairwise_iff_getElem.2 fun i j hi hj hlt => ?_
  obtain ⟨z, hz, heq⟩ := hp.zone_at i _ (List.getElem?_eq_getElem hi)
  obtain ⟨z', hz', heq'⟩ := hp.zone_at j _ (List.getElem?_eq_getElem hj)
  have hapart := Zone.apart_of_ne hm.apart hz hz' (by omega)
  rw [heq, heq']
  exact hapart

/-- The objects and the zones make up a plan, however many spaces have been planned. -/
theorem valid (hp : h.PlannedThrough h' n objs fillers zones zones') (hm : h.Unplanned objs zones)
    (memory : ℕ → ℕ) :
    (Plan.mk h.table.covered h.table.geometry (fillers ++ objs) zones' memory).Valid where
  separate := hp.consistent.marks.separate
  ordered := hp.ordered
  apart := hp.apart hm
  holds o ho := by
    obtain ⟨z, hz, hholds⟩ : ∃ z ∈ zones, z.Holds h.table.geometry.regionWords o := by
      rcases List.mem_append.1 ho with hin | hin
      · obtain ⟨j, z, _, hz, hholds⟩ := hp.holds hin
        exact ⟨z, List.mem_of_getElem? hz, hholds⟩
      · exact hm.holds o hin
    obtain ⟨j, hj, rfl⟩ := List.mem_iff_getElem.1 hz
    obtain ⟨z₀, hz₀, heq⟩ := hp.zone_at j _ (List.getElem?_eq_getElem (hp.length_eq ▸ hj))
    rw [List.getElem?_eq_getElem hj] at hz₀
    cases hz₀
    have hlt : j < zones'.length := hp.length_eq ▸ hj
    refine ⟨zones'[j], List.getElem_mem _, ?_⟩
    rw [heq]
    exact hholds

end PlannedThrough

/-- Dead space that crosses the end of a dense prefix has room for a filler, whatever prefix is
chosen. -/
def FillersFit (h : Heap μ) (objs : List Span) (zones : List Zone) (minimum : ℕ) : Prop :=
  ∀ z ∈ zones, ∀ k, z.first < k → k * h.table.geometry.regionWords < z.top →
    FillerFits objs (z.first * h.table.geometry.regionWords) (k * h.table.geometry.regionWords)
      z.top minimum

omit [ObjectModel μ] in
/-- Fillers of one word fit everywhere. -/
lemma fillersFit_one (h : Heap μ) (objs : List Span) (zones : List Zone) :
    h.FillersFit objs zones 1 :=
  fun _ _ _ h1 h2 =>
    fillerFits_one (Nat.mul_lt_mul_of_pos_right h1 h.table.geometry.regionWords_pos) h2.le

omit [ObjectModel μ] in
lemma FillersFit.not_misfit {minimum : ℕ} (hfits : h.FillersFit objs zones minimum) :
    ¬∃ z ∈ zones, z.Misfit h.table.geometry.regionWords minimum objs := by
  rintro ⟨z, hz, k, h1, h2, hmisfit⟩
  exact hmisfit (hfits z hz k h1 h2)

/-- Gaps that are too small in the next space are so for the objects alone. -/
lemma PlannedThrough.misfit {minimum : ℕ} (hp : h.PlannedThrough h' n objs fillers zones zones')
    (hm : h.Unplanned objs zones) (hz : zones[n]? = some z)
    (hmisfit : z.Misfit h.table.geometry.regionWords minimum (fillers ++ objs)) :
    z.Misfit h.table.geometry.regionWords minimum objs := by
  obtain ⟨k, h1, h2, hnot⟩ := hmisfit
  exact ⟨k, h1, h2, fun hfits => hnot (hfits.agree (hp.agree hm hz)
    (Nat.mul_lt_mul_of_pos_right h1 h.table.geometry.regionWords_pos) h2
      (hm.ordered z (List.mem_of_getElem? hz)).top_le_last)⟩

/-- No object is cut by the bounds of the next space. -/
lemma PlannedThrough.bounds_next (hp : h.PlannedThrough h' n objs fillers zones zones')
    (hm : h.Unplanned objs zones) (hz : zones[n]? = some z) :
    z.Bounds h.table.geometry.regionWords (fillers ++ objs) :=
  (hp.valid hm fun _ => 0).bounds (List.mem_of_getElem? ((hp.rest n (le_refl n)).2.trans hz))

/-- In a cycle the next space is planned around the prefix that is chosen. -/
lemma PlannedThrough.plansAround_prefix {s : Space} {minimum : ℕ}
    (hp : h.PlannedThrough h' n objs fillers zones zones') (hm : h.Unplanned objs zones)
    (hcloses : ClosesGaps μ minimum) (hz : zones[n]? = some z) (limiter : Limiter)
    (maximum : Bool) :
    PlansAround (fun _ => z.Misfit h.table.geometry.regionWords minimum objs)
      (planAroundPrefix n limiter maximum) h' n s
      (fillers ++ objs) z fun k => k = z.chosen h.table.covered h.table.geometry
        (fillers ++ objs) s.deadRatio limiter maximum := by
  have hmem := List.mem_of_getElem? hz
  have hcovered := hp.shape.covered
  have hgeometry := hp.shape.geometry
  have hbounds : z.Bounds h'.table.geometry.regionWords (fillers ++ objs) :=
    hgeometry.symm ▸ hp.bounds_next hm hz
  have haround := Heap.plansAround_prefix (h := h') (i := n) (z := z)
    (by rw [hcovered, hgeometry]; exact hm.ordered z hmem) (hm.keep_eq z hmem) hbounds
    (fun addr words h1 h2 => hcloses.fillDead_eq _ addr words (hcloses.minimum_eq _ ▸ h1) h2) s
      limiter maximum
  rw [hcovered, hgeometry, hcloses.minimum_eq] at haround
  exact haround.widen fun _ hmisfit => hp.misfit hm hz hmisfit

/-- The next space is planned around any boundary in it. -/
lemma PlannedThrough.plansAround_boundary {s : Space} {k minimum : ℕ}
    (hp : h.PlannedThrough h' n objs fillers zones zones') (hm : h.Unplanned objs zones)
    (hcloses : ClosesGaps μ minimum) (hz : zones[n]? = some z) (hk : z.first ≤ k)
    (htop : z.first < k → k * h.table.geometry.regionWords < z.top) :
    PlansAround (fun _ => z.Misfit h.table.geometry.regionWords minimum objs)
      (planAround n (h.table.covered.addr (k * h.table.geometry.regionWords))) h' n s
        (fillers ++ objs) z (· = k) := by
  have hmem := List.mem_of_getElem? hz
  have hcovered := hp.shape.covered
  have hgeometry := hp.shape.geometry
  have hbounds : z.Bounds h'.table.geometry.regionWords (fillers ++ objs) :=
    hgeometry.symm ▸ hp.bounds_next hm hz
  have haround := Heap.plansAround_boundary (h := h') (i := n) (z := z)
    (by rw [hcovered, hgeometry]; exact hm.ordered z hmem) (hm.keep_eq z hmem) hbounds
    (fun addr words h1 h2 => hcloses.fillDead_eq _ addr words (hcloses.minimum_eq _ ▸ h1) h2) s hk
      (by rw [hgeometry]; exact htop)
  rw [hcovered, hgeometry, hcloses.minimum_eq] at haround
  exact haround.widen fun _ hmisfit => hp.misfit hm hz hmisfit

/-- The next space is planned, whatever dense prefix it is planned around. -/
lemma PlannedThrough.next_leads {may : Fault → Prop} {around : HeapAction μ Unit}
    {settled : ℕ → Prop} {s : Space} {minimum : ℕ}
    (hp : h.PlannedThrough h' n objs fillers zones zones') (hm : h.Unplanned objs zones)
    (hcloses : ClosesGaps μ minimum) (hz : zones[n]? = some z) (hs : h.spaces[n]? = some s)
    (haround : PlansAround may around h' n s (fillers ++ objs) z settled) :
    Leads may (planSpaceBy around n) h' fun _ h'' => ∃ k fillers, settled k
      ∧ h.PlannedThrough h'' (n + 1) objs fillers zones (zones'.set n { z with keep := k }) := by
  obtain ⟨z₀, hz₀, hover⟩ := hm.liesOver.exists_zone hs
  cases hz.symm.trans hz₀
  rw [hm.consistent.covered] at hover
  have hmem := List.mem_of_getElem? hz
  have hord := hm.ordered z hmem
  have hcovered := hp.shape.covered
  have hgeometry := hp.shape.geometry
  have hlead := planSpaceBy_leads (h := h') hp.consistent ((hp.rest n (le_refl n)).1.trans hs)
    (by rw [hcovered, hgeometry]; exact hover) (by rw [hcovered, hgeometry]; exact hord)
      (hm.keep_eq z hmem)
    (by rw [hgeometry]; exact hp.bounds_next hm hz) (hp.blank n z (le_refl n) hz) haround
  refine hlead.mono fun _ h'' => ?_
  rintro ⟨k, objs', hzk, hk, hplanned⟩
  rw [hcovered, hgeometry] at hzk
  obtain ⟨fillers', hp'⟩ := hp.step hm.apart hz hs (hp.agree hm hz) hm.consistent.marks.separate
    ((hcloses.minimum_eq h'.image).trans (hcloses.minimum_eq h.image).symm) hzk hplanned
  exact ⟨k, fillers', hk, hp'⟩

/-- The next space is planned around the dense prefix that is chosen. -/
lemma PlannedTo.next_leads {minimum : ℕ}
    (hp : h.PlannedTo limiter maximum h' n objs fillers zones zones') (hm : h.Unplanned objs zones)
    (hcloses : ClosesGaps μ minimum) (hn : n < h.spaces.length) :
    Leads (fun _ => ∃ z ∈ zones, z.Misfit h.table.geometry.regionWords minimum objs)
      (planSpace limiter maximum n) h' fun _ h'' =>
      ∃ fillers zones', h.PlannedTo limiter maximum h'' (n + 1) objs fillers zones zones' := by
  have hs : h.spaces[n]? = some h.spaces[n] := List.getElem?_eq_getElem hn
  obtain ⟨z, hz, -⟩ := hm.liesOver.exists_zone hs
  have hmem := List.mem_of_getElem? hz
  have hord := hm.ordered z hmem
  have hagree := hp.agree hm hz
  have haround := hp.plansAround_prefix hm hcloses hz (s := h.spaces[n]) limiter maximum
  have hlead := hp.toPlannedThrough.next_leads hm hcloses hz hs haround
  refine (hlead.widen fun _ hmisfit => ⟨z, hmem, hmisfit⟩).mono fun _ h'' => ?_
  rintro ⟨k, fillers', hk, hp'⟩
  refine ⟨fillers', _, hp', fun j s₁ z₁ z₁' hj hs₁ hz₁ hz₁' => ?_⟩
  have hlen : n < zones'.length := by
    rw [hp.length_eq]
    exact (List.getElem?_eq_some_iff.1 hz).1
  rw [List.getElem?_set, if_pos hlen] at hz₁'
  split at hz₁'
  case isTrue heq =>
    cases hz₁'
    subst heq
    cases hs.symm.trans hs₁
    cases hz.symm.trans hz₁
    rw [hk, hagree.chosen_eq hord]
  case isFalse => exact hp.chosen j s₁ z₁ z₁' (by omega) hs₁ hz₁ hz₁'

/-- Where fillers fit there is no fault. -/
lemma PlannedTo.next_runs {minimum : ℕ}
    (hp : h.PlannedTo limiter maximum h' n objs fillers zones zones') (hm : h.Unplanned objs zones)
    (hcloses : ClosesGaps μ minimum) (hfits : h.FillersFit objs zones minimum)
    (hn : n < h.spaces.length) :
    Runs (planSpace limiter maximum n) h' fun _ h'' =>
      ∃ fillers zones', h.PlannedTo limiter maximum h'' (n + 1) objs fillers zones zones' :=
  (hp.next_leads hm hcloses hn).runs fun _ => hfits.not_misfit

/-- Every space is planned, whatever dense prefixes are chosen. -/
theorem Unplanned.planSpaces_runs {minimum : ℕ} (hm : h.Unplanned objs zones)
    (hcloses : ClosesGaps μ minimum) (hfits : h.FillersFit objs zones minimum) (limiter : Limiter)
    (maximum : Bool) :
    Runs (planSpaces limiter maximum) h fun _ h' =>
      ∃ fillers zones', h.PlannedTo limiter maximum h' h.spaces.length objs fillers zones
        zones' := by
  rw [planSpaces, runs_bind, runs_get]
  refine runs_forM_range (fun n h' => ∃ fillers zones',
    h.PlannedTo limiter maximum h' n objs fillers zones zones')
    ⟨[], zones, hm.plannedTo⟩ fun n h' hn hplanned => ?_
  obtain ⟨fillers, zones', hp⟩ := hplanned
  exact hp.next_runs hm hcloses hfits hn

/-- A heap all of whose spaces are planned holds the plan, and compaction has not begun. -/
theorem PlannedThrough.unbegun (hp : h.PlannedThrough h' h.spaces.length objs fillers zones zones')
    (hm : h.Unplanned objs zones) (memory : ℕ → ℕ) :
    (Plan.mk h.table.covered h.table.geometry (fillers ++ objs) zones' memory).Unbegun h' := by
  have hlength : h'.spaces.length = zones'.length := by
    rw [hp.spaces_length, hm.spaces_over.length_eq, hp.length_eq]
  have hplanned : ∀ z ∈ zones', ∃ j, zones'[j]? = some z ∧ j < h.spaces.length := fun z hz => by
    obtain ⟨j, hj, rfl⟩ := List.mem_iff_getElem.1 hz
    exact ⟨j, List.getElem?_eq_getElem hj, by rw [← hp.spaces_length, hlength]; exact hj⟩
  refine ⟨⟨hp.consistent, ⟨hp.consistent.laid, hp.shape.covered, hp.shape.geometry, fun z hz => ?_,
    fun r hr => ?_⟩, ?_⟩, fun z hz => ?_⟩
  · obtain ⟨j, hj, hlt⟩ := hplanned z hz
    exact (hp.planned j z hlt hj).1
  · have hout : ∀ z ∈ zones, ¬(z.first ≤ r ∧ r < z.last) := fun z hz hin => by
      obtain ⟨j, hj⟩ := List.mem_iff_getElem?.1 hz
      have hlt : j < zones'.length := hp.length_eq ▸ (List.getElem?_eq_some_iff.1 hj).1
      obtain ⟨z₀, hz₀, heq⟩ := hp.zone_at j zones'[j] (List.getElem?_eq_getElem hlt)
      cases hj.symm.trans hz₀
      refine hr zones'[j] (List.getElem_mem hlt) ?_
      rw [heq]
      exact hin
    rw [hp.outside r hout]
    exact hm.outside r hout
  · refine List.forall₂_iff_get.2 ⟨hlength, fun j h1 h2 => ?_⟩
    obtain ⟨s, hs, hmatches⟩ :=
      (hp.planned j zones'[j] (by rw [← hp.spaces_length]; exact h1)
        (List.getElem?_eq_getElem h2)).2.2
    rw [List.getElem?_eq_getElem h1] at hs
    cases hs
    exact hmatches
  · obtain ⟨j, hj, hlt⟩ := hplanned z hz
    exact (hp.planned j z hlt hj).2.1

/-- Two objects can be marked in the heap of four regions. -/
lemma fourRegions_marked : ∃ m, (do
      let (_, m) ← fourRegions.bitmap.mark (fourRegions.covered.addr 1) 3
      let (_, m) ← m.mark (fourRegions.covered.addr 10) 2
      pure m) = .ok m
    ∧ ({ fourRegions with bitmap := m } : Heap MemoryImage).Marked [⟨10, 2⟩, ⟨1, 3⟩]
      [⟨0, 0, 4, 14⟩] := by
  have h₀ : fourRegions.bitmap.Marks [] := MarkBitmap.marks_unmarked (by decide)
  obtain ⟨m₁, heq₁, h₁, hcovered₁⟩ :=
    h₀.mark_eq (o := ⟨1, 3⟩) ⟨by decide, by simp⟩ (by decide) (by decide)
  obtain ⟨m₂, heq₂, h₂, hcovered₂⟩ :=
    h₁.mark_eq (o := ⟨10, 2⟩) ⟨by decide, by simp [Span.Apart, Span.past]⟩
    (by rw [hcovered₁]; decide) (by rw [hcovered₁]; decide)
  rw [hcovered₁] at heq₂
  have hover : List.Forall₂
      (fun s z => s.Over fourRegions.table.covered fourRegions.table.geometry.regionWords z)
      fourRegions.spaces [⟨0, 0, 4, 14⟩] := .cons ⟨rfl, rfl, rfl, rfl, by decide, by decide⟩ .nil
  have hordered : Zone.Ordered ⟨0, 0, 4, 14⟩ fourRegions.table.geometry.regionWords
      fourRegions.table.covered.words :=
    ⟨by decide, by decide, by decide, by decide, by decide⟩
  refine ⟨m₂, ?_, ?_⟩
  · rw [show fourRegions.covered = fourRegions.bitmap.covered from rfl, heq₁, ok_bind]
    dsimp only
    rw [heq₂]
    rfl
  · exact
      { consistent := ⟨RegionTable.laid_empty (by decide) (by decide) (by decide) (by decide), h₂,
          hcovered₂.trans hcovered₁, rfl, rfl⟩
        spaces_over := hover
        ordered := fun z hz => List.mem_singleton.1 hz ▸ hordered
        keep_eq := by decide
        apart := List.pairwise_singleton _ _
        holds := by simp [Zone.Holds, Span.past, fourRegions]
        blank := fun r => Table.get_fresh .. }

end Heap

end MarkCompact
