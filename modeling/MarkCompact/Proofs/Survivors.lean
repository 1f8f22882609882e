import Mathlib.Data.List.Sort
import MarkCompact.Proofs.Parsing

/-!
# The object graph survives

A cycle moves the objects that can be reached, and nothing else that a walk over the spaces could
take for an object remains: in each space the objects that are met afterwards, fillers apart, are
those that could be reached before, in the same order.  An object keeps its header and its payload,
and its references follow the objects that they refer to.

Main statements: `WellFormed.survives` (what becomes of one object), `WellFormed.places_eq` (what
becomes of one space) and `Collector.graph_survives`.
-/

namespace MarkCompact

variable {objects : List (List Span)} {zones : List Zone} {strong : List ℕ} {o q : Span}
  {os : List Span} {z : Zone} {a i : ℕ} {limiter : Limiter} {maximum : Bool}

/-! ## Objects in order -/

namespace Span

/-- The span starts before the other one. -/
def Precedes (o o' : Span) : Prop :=
  o.start < o'.start

instance : Std.Irrefl Precedes := ⟨fun _ => lt_irrefl _⟩

instance : Std.Antisymm Precedes := ⟨fun _ _ h h' => absurd h (lt_asymm h')⟩

end Span

/-- Tiles follow one another in order. -/
lemma Tiling.precedes {tiles : List Span} {b : ℕ} (h : Tiling a tiles b) :
    tiles.Pairwise Span.Precedes := by
  induction h with
  | nil => exact .nil
  | @cons c o rest pos next ih =>
    refine .cons (fun o' ho' => ?_) ih
    have hbounds := next.bounds ho'
    rw [Span.past] at hbounds
    show o.start < o'.start
    omega

/-- The header of a filler says that it is one. -/
lemma MemoryImage.isFiller_of_header {image : MemoryImage} {e : Extent} {w n : ℕ}
    (h : image.word e w = fillerHeader n) :
    image.isFiller (e.addr w) = true := by
  show (image.word e w % 2 == fillerFlag) = true
  rw [h, fillerHeader, fillerFlag, sizeUnit, beq_iff_eq]
  omega

namespace Heap

/-! ## What becomes of an object -/

/-- A reference that held `a` holds `a'` now: it follows the object that it refers to, and stays if
it points out of the spaces, as null does. -/
def Carried (h : Heap MemoryImage) (objects : List (List Span)) (place : Span → Span)
    (a a' : ℕ) : Prop :=
  if h.isInSpace a then ∃ o ∈ objects.flatten, a = h.covered.addr o.start
    ∧ a' = h.covered.addr (place o).start else a' = a

/-- The object is at its place in the heap `h'`, with the size, the header and the payload that it
had in the heap `h`, and with references that have followed the objects that they refer to. -/
structure Survives (h h' : Heap MemoryImage) (objects : List (List Span)) (place : Span → Span)
    (o : Span) : Prop where
  words : (place o).words = o.words
  header : h'.image.word h.covered (place o).start = h.image.word h.covered o.start
  payload : ∀ k, (o.shape (h.image.word h.covered)).fixedWords ≤ k → k < o.words →
    h'.image.word h.covered ((place o).start + k) = h.image.word h.covered (o.start + k)
  references : ∃ slots slots', h.image.references (h.covered.addr o.start) = .ok slots
    ∧ h'.image.references (h.covered.addr (place o).start) = .ok slots'
    ∧ List.Forall₂ (fun slot slot' => ∃ a a', (h.image.read slot).load = .ok a
      ∧ (h'.image.read slot').load = .ok a'
      ∧ h.Carried objects place a a') slots slots'

variable {h h₁ : Heap MemoryImage}

namespace WellFormed

variable (hw : h.WellFormed zones objects) (hpoints : ∀ a ∈ strong, h.Points objects.flatten a)
include hw hpoints

/-- References to objects that can be reached follow them. -/
lemma carried_redirect (hlink : h.isInSpace a = true → ∃ o ∈ h.live objects strong,
    a = h.covered.addr o.start) :
    h.Carried objects (h.plan zones objects strong limiter maximum).place a
      ((h.plan zones objects strong limiter maximum).redirect a) := by
  have hp := hw.plan_fits hpoints limiter maximum
  rw [Carried]
  split
  case isTrue hin =>
    obtain ⟨o, ho, rfl⟩ := hlink hin
    exact ⟨o, (mem_live.1 ho).mem, rfl, hp.redirect_start (List.mem_append_right _ ho)⟩
  case isFalse hout =>
    exact Plan.redirect_of_not_inSpace fun hin => hout (hw.plan_inSpace_iff.1 hin)

omit hw in
/-- A strong root refers to an object that can be reached, if to any. -/
lemma live_of_root (ha : a ∈ strong) (hin : h.isInSpace a = true) :
    ∃ o ∈ h.live objects strong, a = h.covered.addr o.start := by
  obtain ⟨o, ho, rfl⟩ := hpoints a ha hin
  exact ⟨o, mem_live.2 (.root ho ha), rfl⟩

variable (hc : (h.plan zones objects strong limiter maximum).Compacted h₁)
include hc

/-- An object that can be reached survives. -/
theorem survives (ho : o ∈ h.live objects strong) :
    h.Survives h₁ objects (h.plan zones objects strong limiter maximum).place o where
  words := rfl
  header := hw.word_place_start hpoints hc ho
  payload k h1 h2 := by
    have hp := hw.plan_fits hpoints limiter maximum
    rw [← hw.plan_shape hpoints ho] at h1
    have hword := hc.word_place hp.toValid (List.mem_append_right _ ho) h2
    rw [Plan.redirectWord, if_pos (Or.inr h1),
      hw.plan_memory hpoints ho (Span.covers_add h2)] at hword
    exact hword
  references := by
    have hp := hw.plan_selfContained hpoints limiter maximum
    have hmem := List.mem_append_right (h.planned zones objects strong limiter maximum) ho
    have hreach := mem_live.1 ho
    refine ⟨_, _, hw.references_eq hreach.mem, hc.references_place hp hmem, ?_⟩
    rw [Shape.allPlaces_eq, hw.plan_shape hpoints ho, List.map_map]
    refine List.forall₂_map_left_iff.2 (List.forall₂_map_right_iff.2
      (List.forall₂_same.2 fun b hb => ?_))
    have hplace : b.behind o.start ∈ (o.shape (h.image.word h.covered)).allPlaces o.start := by
      rw [Shape.allPlaces_eq]
      exact List.mem_map_of_mem hb
    obtain ⟨hload, _, _⟩ := hw.load_eq hreach.mem hplace
    have hb' : b ∈ ((h.plan zones objects strong limiter maximum).shape o).allPlaces 0 :=
      (hw.plan_shape hpoints ho).symm ▸ hb
    have hread := hc.read_place hp hmem hb'
    rw [hw.plan_load hpoints ho hb] at hread
    rw [Place.load_behind] at hload
    exact ⟨_, _, hload, hread, hw.carried_redirect hpoints (hw.live_of_place ho hb)⟩

end WellFormed

/-! ## What becomes of a space -/

open Classical in
/-- Those of the objects that can be reached and are not fillers. -/
noncomputable def survivors (h : Heap MemoryImage) (objects : List (List Span)) (strong : List ℕ)
    (os : List Span) : List Span :=
  os.filter fun o => h.Reachable objects.flatten strong o
    ∧ h.image.isFiller (h.covered.addr o.start) = false

/-- Those of the objects that are not fillers. -/
def proper (h : Heap MemoryImage) (os : List Span) : List Span :=
  os.filter fun o => !h.image.isFiller (h.covered.addr o.start)

lemma mem_survivors : o ∈ h.survivors objects strong os
    ↔ o ∈ os ∧ h.Reachable objects.flatten strong o ∧ h.image.isFiller
      (h.covered.addr o.start) = false := by
  simp only [survivors, List.mem_filter, decide_eq_true_eq]

lemma mem_proper :
    o ∈ h.proper os ↔ o ∈ os ∧ h.image.isFiller (h.covered.addr o.start) = false := by
  simp only [proper, List.mem_filter, Bool.not_eq_true']

namespace WellFormed

variable (hw : h.WellFormed zones objects)
include hw

/-- The objects of a space are those that start in its zone. -/
lemma mem_iff_has (hos : objects[i]? = some os)
    (hz : (h.plan zones objects strong limiter maximum).zones[i]? = some z)
    (hp : (h.plan zones objects strong limiter maximum).Valid) :
    q ∈ os ↔ q ∈ objects.flatten ∧ z.Has h.table.geometry.regionWords q.start := by
  -- A member of any list starts in the zone of the same number.
  have hhas : ∀ {j : ℕ} {os' : List Span} {z' : Zone}, objects[j]? = some os' →
      (h.plan zones objects strong limiter maximum).zones[j]? = some z' → q ∈ os' →
      z'.Has h.table.geometry.regionWords q.start := by
    intro j os' z' hos' hz' hin
    obtain ⟨z₀, _, hz₀, _, heq⟩ := plan_zone_at hz'
    obtain ⟨h1, rfl⟩ := List.getElem?_eq_some_iff.1 hos'
    obtain ⟨h2, rfl⟩ := List.getElem?_eq_some_iff.1 hz₀
    have hholds := (hw.tiled.get h2 h1).bounds hin
    have hpos := hw.separate.words_pos q (List.mem_flatten_of_mem (List.getElem_mem h1) hin)
    have hord := hp.ordered z' (List.mem_of_getElem? hz')
    have hz'' : z'.Holds h.table.geometry.regionWords q := by
      rw [heq]
      exact hholds
    exact hz''.has hord (Span.covers_start hpos)
  constructor
  · exact fun hin => ⟨List.mem_flatten_of_mem (List.mem_of_getElem? hos) hin, hhas hos hz hin⟩
  · rintro ⟨hmem, hin⟩
    obtain ⟨os', hos', hin'⟩ := List.mem_flatten.1 hmem
    obtain ⟨j, hj⟩ := List.mem_iff_getElem?.1 hos'
    have hlt : j < (h.plan zones objects strong limiter maximum).zones.length := by
      rw [hw.plan_zones_length, hw.tiled.length_eq]
      exact (List.getElem?_eq_some_iff.1 hj).1
    have hz' := List.getElem?_eq_getElem hlt
    obtain rfl := hp.index_eq hz hz' hin (hhas hj hz' hin')
    cases hos.symm.trans hj
    exact hin'

variable (hpoints : ∀ a ∈ strong, h.Points objects.flatten a)
  (hc : (h.plan zones objects strong limiter maximum).Compacted h₁)
include hpoints hc

/-- After a cycle a space holds, fillers apart, the objects that could be reached, in the same
order. -/
theorem places_eq (hos : objects[i]? = some os)
    (hz : (h.plan zones objects strong limiter maximum).zones[i]? = some z) :
    (h.survivors objects strong os).map (h.plan zones objects strong limiter maximum).place
      = h₁.settled.proper ((h.plan zones objects strong limiter maximum).tiles z) := by
  have hp := hw.plan_fits hpoints limiter maximum
  have hmem := List.mem_of_getElem? hz
  have hcovered : h₁.settled.covered = h.covered := hc.serves.covered
  obtain ⟨htiling, htiles⟩ := hp.tiles_spec hmem
  refine List.Pairwise.eq_of_mem_iff (List.pairwise_map.2 ?_) (htiling.precedes.filter _) fun o =>
    ?_
  · have hos' : os.Pairwise Span.Precedes := by
      obtain ⟨h1, rfl⟩ := List.getElem?_eq_some_iff.1 hos
      exact (hw.tiled.get (hw.tiled.length_eq ▸ h1) h1).precedes
    refine (hos'.filter _).imp_of_mem fun {o o'} ho ho' hlt => ?_
    obtain ⟨hin, hreach, _⟩ := mem_survivors.1 ho
    obtain ⟨hin', _, _⟩ := mem_survivors.1 ho'
    have hhas := ((hw.mem_iff_has hos hz hp.toValid).1 hin).2
    have hhas' := ((hw.mem_iff_has hos hz hp.toValid).1 hin').2
    have hpos := hw.separate.words_pos o hreach.mem
    have hlive :=
      live_of_mem (List.mem_append_right (h.planned zones objects strong limiter maximum)
        (mem_live.2 hreach))
      (Span.covers_start hpos)
    show (h.plan zones objects strong limiter maximum).forward o.start
      < (h.plan zones objects strong limiter maximum).forward o'.start
    rw [hp.forward_eq hmem hhas, hp.forward_eq hmem hhas']
    exact Zone.forward_lt hlive hlt
  · rw [List.mem_map, mem_proper, htiles, hcovered]
    constructor
    · rintro ⟨q, hq, rfl⟩
      obtain ⟨hin, hreach, hproper⟩ := mem_survivors.1 hq
      have hlive := mem_live.2 hreach
      have hhas := ((hw.mem_iff_has hos hz hp.toValid).1 hin).2
      refine ⟨⟨Or.inl ⟨q, List.mem_append_right _ hlive, rfl⟩, hp.has_forward hmem hhas⟩, ?_⟩
      exact (MemoryImage.isFiller_congr (hw.word_place_start hpoints hc hlive)).trans hproper
    · rintro ⟨⟨htile, hhas⟩, hproper⟩
      rcases hw.tile_cases hpoints hc htile hmem hhas with ⟨q, hq, rfl⟩ | ⟨_, hheader, _⟩
      · have hmem' := List.mem_append_right (h.planned zones objects strong limiter maximum) hq
        obtain ⟨z', hz', hholds⟩ := hp.holds q hmem'
        have hhas' :=
          hholds.has (hp.ordered z' hz') (Span.covers_start (hp.separate.words_pos q hmem'))
        obtain rfl := hp.eq_of_has hmem hz' hhas (hp.has_forward hz' hhas')
        have hreach := mem_live.1 hq
        refine ⟨q, mem_survivors.2
          ⟨(hw.mem_iff_has hos hz hp.toValid).2 ⟨hreach.mem, hhas'⟩, hreach, ?_⟩, rfl⟩
        exact (MemoryImage.isFiller_congr (hw.word_place_start hpoints hc hq)).symm.trans hproper
      · have hfiller : h₁.image.isFiller (h.covered.addr o.start) = true :=
          MemoryImage.isFiller_of_header hheader
        exact absurd (hproper.symm.trans hfiller) (by decide)

end WellFormed

end Heap

/-! ## After a cycle -/

namespace Collector

variable {c : Collector MemoryImage} {roots : Roots}

/-- A cycle takes the object graph to other places: space by space, the objects that are met
afterwards, fillers apart, are the places of those that could be reached, in the same order; these
keep their headers and payloads, and their references and the strong roots follow the objects that
they refer to. -/
theorem graph_survives (hr : Reached c) (ho : c.Offers objects roots.strong) (requested : Bool) :
    ∃ summary roots' c' tiles place, c.invoke roots requested = .ok (summary, roots', c')
      ∧ c'.heap.covered = c.heap.covered ∧ c'.heap.HoldsObjects tiles
      ∧ (∀ s ∈ c'.heap.spaces, s.top = s.newTop)
      ∧ List.Forall₂ (fun os os' => (c.heap.survivors objects roots.strong os).map place
        = c'.heap.proper os') objects tiles
      ∧ (∀ o, c.heap.Reachable objects.flatten roots.strong o →
        place o ∈ tiles.flatten ∧ c.heap.Survives c'.heap objects place o)
      ∧ List.Forall₂ (c.heap.Carried objects place) roots.strong roots'.strong := by
  have hk := hr.kept
  have hw := hk.wellFormed ho
  have hp : (c.plan objects roots.strong requested).FitsMemory :=
    hw.plan_fits ho.points c.limiter (c.nextMaximum requested)
  obtain ⟨h, hc, _, heq⟩ := hk.invoke_eq ho requested
  have hsettled :=
    hc.wellFormed (hw.plan_selfContained ho.points c.limiter (c.nextMaximum requested))
  refine ⟨_, _, _, (c.plan objects roots.strong requested).settledObjects,
    (c.plan objects roots.strong requested).place, heq, hc.serves.covered, hsettled.holdsObjects,
    fun s hs => ?_, ?_, fun o hreach => ⟨?_, ?_⟩, ?_⟩
  · obtain ⟨s, _, rfl⟩ := List.mem_map.1 hs
    rfl
  · have hlength : objects.length = (c.plan objects roots.strong requested).zones.length :=
      hw.tiled.length_eq.symm.trans hw.plan_zones_length.symm
    refine List.forall₂_map_right_iff.2 (List.forall₂_iff_get.2 ⟨hlength, fun j h1 h2 => ?_⟩)
    exact hw.places_eq ho.points hc (List.getElem?_eq_getElem h1) (List.getElem?_eq_getElem h2)
  · exact hp.mem_settledObjects.2 (Or.inl
      ⟨o, List.mem_append_right _ (Heap.mem_live.2 hreach), rfl⟩)
  · have hsurvives := hw.survives ho.points hc (Heap.mem_live.2 hreach)
    exact ⟨hsurvives.words, hsurvives.header, hsurvives.payload, hsurvives.references⟩
  · refine List.forall₂_map_right_iff.2 (List.forall₂_same.2 fun a ha => ?_)
    exact hw.carried_redirect ho.points (Heap.WellFormed.live_of_root ho.points ha)

/-- The objects of the example survive a maximum compaction. -/
theorem graph_survives_linked : Reached linked ∧ linked.Offers Heap.linkedObjects [64]
    ∧ ∃ summary roots' c' tiles place, linked.invoke ⟨[64], [88]⟩ true = .ok (summary, roots', c')
      ∧ c'.heap.covered = linked.heap.covered ∧ c'.heap.HoldsObjects tiles
      ∧ (∀ s ∈ c'.heap.spaces, s.top = s.newTop)
      ∧ List.Forall₂ (fun os os' => (linked.heap.survivors Heap.linkedObjects [64] os).map place
        = c'.heap.proper os')
        Heap.linkedObjects tiles
      ∧ (∀ o, linked.heap.Reachable Heap.linkedObjects.flatten [64] o →
        place o ∈ tiles.flatten ∧ linked.heap.Survives c'.heap Heap.linkedObjects place o)
      ∧ List.Forall₂ (linked.heap.Carried Heap.linkedObjects place) [64] roots'.strong :=
  ⟨linked_reached, linked_offers, graph_survives linked_reached linked_offers true⟩

end Collector

end MarkCompact
