import MarkCompact.Proofs.Clearing

/-!
# Well-formed heaps

The objects of a well-formed heap fill each space from its bottom up to its top, their headers say
how large they are and where their references are, and a reference that points into a space points
at the start of an object.  The objects that can be reached from the strong roots are those that a
cycle has to keep.

Main statements: `WellFormed.loads_iff` (what the references of an object hold, place by place) and
`WellFormed.inZones_iff` (which addresses are in a space).
-/

namespace MarkCompact

variable {zones : List Zone} {objects : List (List Span)} {roots : List ℕ} {o : Span}
  {z : Zone} {a : ℕ}

namespace MemoryImage

/-- Where the references of the object at `addr` are, its metadata reference last. -/
def references (image : MemoryImage) (addr : ℕ) : Except Fault (List MemorySlot) := do
  let s ← image.shapeAt addr
  pure (slotsOf s addr ++ (image.metadataSlot? addr).toList)

/-- One of the references of the object at `addr` holds the address `target`. -/
def Loads (image : MemoryImage) (addr target : ℕ) : Prop :=
  ∃ slots, image.references addr = .ok slots ∧ ∃ slot ∈ slots, (image.read slot).load = .ok target

end MemoryImage

namespace Heap

variable {h h' : Heap MemoryImage}

/-- The address is outside of every space, or one of the objects starts there. -/
def Points (h : Heap MemoryImage) (objs : List Span) (a : ℕ) : Prop :=
  h.isInSpace a = true → ∃ o ∈ objs, a = h.covered.addr o.start

/-- The spaces lie over the zones, one each, and are filled with objects, which refer to objects. -/
structure WellFormed (h : Heap MemoryImage) (zones : List Zone)
    (objects : List (List Span)) : Prop where
  orderly : ∃ old, h.Orderly old zones
  backs : h.image.Backs h.covered
  /-- Narrow references count from the word in front of the memory. -/
  base_le : bytesPerWord ≤ h.covered.start
  /-- The system does not map as much memory as a header can say. -/
  words_lt : h.covered.words < sizeLimit
  tiled : List.Forall₂
    (fun z os => Tiling (z.first * h.table.geometry.regionWords) os z.top) zones objects
  sized : ∀ o ∈ objects.flatten, h.image.objectWords (h.covered.addr o.start) = o.words
  readable : ∀ o ∈ objects.flatten, ∃ slots, h.image.references (h.covered.addr o.start) = .ok slots
    ∧ ∀ slot ∈ slots, ∃ target, (h.image.read slot).load = .ok target
    ∧ h.Points objects.flatten target

/-- The object can be reached from the roots. -/
inductive Reachable (h : Heap MemoryImage) (objs : List Span) (roots : List ℕ) : Span → Prop
  | root {o : Span} (mem : o ∈ objs) (held : h.covered.addr o.start ∈ roots) :
      Reachable h objs roots o
  | link {o o' : Span} (reachable : Reachable h objs roots o) (mem : o' ∈ objs)
      (loads : h.image.Loads (h.covered.addr o.start) (h.covered.addr o'.start)) :
      Reachable h objs roots o'

lemma Reachable.mem {objs : List Span} (hr : h.Reachable objs roots o) : o ∈ objs := by
  cases hr with
  | root hmem _ => exact hmem
  | link _ hmem _ => exact hmem

end Heap

/-! ## Objects place by place -/

/-- The shape that the header of an object says, in a memory of words. -/
def Span.shape (o : Span) (memory : ℕ → ℕ) : Shape :=
  match Shape.ofHeader (memory o.start) with
  | .ok s => s
  | .error _ => {}

/-- The references of an object follow from its header. -/
lemma MemoryImage.references_eq {image : MemoryImage} {e : Extent} {i : ℕ} {s : Shape}
    (hshape : Shape.ofHeader (image.word e i) = .ok s) :
    image.references (e.addr i) = .ok ((s.allPlaces i).map (Place.slot e)) := by
  have hat : image.shapeAt (e.addr i) = .ok s := hshape
  rw [references, hat, ok_bind, Shape.slotsOf_eq, Shape.metadataSlot?_eq hshape, Shape.allPlaces,
    List.map_append]
  cases s.metadataPlace? i <;> rfl

namespace Heap.WellFormed

variable {h : Heap MemoryImage} (hw : h.WellFormed zones objects)
include hw

lemma covered_eq : h.covered = h.table.covered := by
  obtain ⟨_, ho⟩ := hw.orderly
  exact ho.consistent.covered

/-- An address is in a space exactly if it is in the zone of one. -/
lemma isInSpace_iff :
    h.isInSpace a = true ↔ InZones h.covered h.table.geometry.regionWords zones a := by
  obtain ⟨_, ho⟩ := hw.orderly
  exact ho.liesOver.isInSpace_iff

/-- Every object lies in a zone. -/
lemma exists_zone (ho : o ∈ objects.flatten) :
    ∃ z ∈ zones, z.Holds h.table.geometry.regionWords o := by
  obtain ⟨os, hos, hin⟩ := List.mem_flatten.1 ho
  obtain ⟨i, hi⟩ := List.mem_iff_getElem.1 hos
  obtain ⟨hlt, rfl⟩ := hi
  have hlt' : i < zones.length := hw.tiled.length_eq ▸ hlt
  exact ⟨zones[i], List.getElem_mem hlt', (hw.tiled.get hlt' hlt).bounds hin⟩

lemma ordered (hz : z ∈ zones) : z.Ordered h.table.geometry.regionWords h.covered.words := by
  obtain ⟨_, ho⟩ := hw.orderly
  exact hw.covered_eq ▸ ho.ordered z hz

/-- The objects share no word. -/
lemma separate : Separate objects.flatten := by
  obtain ⟨_, ho⟩ := hw.orderly
  refine ⟨fun o hin => ?_, List.pairwise_flatten.2 ⟨fun os hos => ?_, ?_⟩⟩
  · obtain ⟨os, hos, hin⟩ := List.mem_flatten.1 hin
    obtain ⟨i, hlt, rfl⟩ := List.mem_iff_getElem.1 hos
    exact (hw.tiled.get (hw.tiled.length_eq ▸ hlt) hlt).separate.words_pos o hin
  · obtain ⟨i, hlt, rfl⟩ := List.mem_iff_getElem.1 hos
    exact (hw.tiled.get (hw.tiled.length_eq ▸ hlt) hlt).separate.pairwise
  · refine List.pairwise_iff_getElem.2 fun i j hi hj hlt o ho₁ o' ho₂ => ?_
    have hi' : i < zones.length := hw.tiled.length_eq ▸ hi
    have hj' : j < zones.length := hw.tiled.length_eq ▸ hj
    have h1 := (hw.tiled.get hi' hi).bounds ho₁
    have h2 := (hw.tiled.get hj' hj).bounds ho₂
    have hord := hw.ordered (List.getElem_mem hi')
    have hord' := hw.ordered (List.getElem_mem hj')
    have hlast := hord.top_le_last
    have hlast' := hord'.top_le_last
    simp only [List.get_eq_getElem] at h1 h2
    rcases List.pairwise_iff_getElem.1 ho.apart i j hi' hj' hlt with hle | hle
    · have := Nat.mul_le_mul_right h.table.geometry.regionWords hle
      exact Or.inl (by omega)
    · have := Nat.mul_le_mul_right h.table.geometry.regionWords hle
      exact Or.inr (by omega)

/-- Every object ends within the memory. -/
lemma past_le (ho : o ∈ objects.flatten) : o.past ≤ h.covered.words := by
  obtain ⟨z, hz, hholds⟩ := hw.exists_zone ho
  have hord := hw.ordered hz
  exact le_trans hholds.2 (le_trans hord.top_le_last hord.last_le)

/-- Objects lie in spaces. -/
lemma isInSpace (ho : o ∈ objects.flatten) : h.isInSpace (h.covered.addr o.start) = true := by
  obtain ⟨z, hz, hholds⟩ := hw.exists_zone ho
  have htop := (hw.ordered hz).top_le_last
  have hlt := hw.separate.start_lt_past ho
  have hpast := hholds.2
  exact hw.isInSpace_iff.2 ⟨z, hz, Extent.addr_le_addr.2 hholds.1, Extent.addr_lt_addr.2 (by omega)⟩

/-- What points at an object among some of them points at one of those. -/
lemma mem_of_points {objs : List Span} (hsub : ∀ o ∈ objs, o ∈ objects.flatten)
    (ho : o ∈ objects.flatten) (hpoints : h.Points objs (h.covered.addr o.start)) : o ∈ objs := by
  obtain ⟨o', ho', heq⟩ := hpoints (hw.isInSpace ho)
  exact hw.separate.eq_of_start ho (hsub o' ho') (Extent.addr_inj.1 heq) ▸ ho'

/-- The header of an object says its size. -/
lemma shape_eq (ho : o ∈ objects.flatten) :
    Shape.ofHeader (h.image.word h.covered o.start) = .ok (o.shape (h.image.word h.covered))
      ∧ (o.shape (h.image.word h.covered)).totalWords = o.words := by
  obtain ⟨slots, hslots, _⟩ := hw.readable o ho
  obtain ⟨s, hs, _⟩ := bind_eq_ok_iff.1 hslots
  have hshape : Shape.ofHeader (h.image.word h.covered o.start) = .ok s := hs
  have heq : o.shape (h.image.word h.covered) = s := by rw [Span.shape, hshape]
  exact ⟨heq ▸ hshape, heq ▸ (Shape.ofHeader_eq hshape).1.trans (hw.sized o ho)⟩

/-- The references of an object, in order. -/
lemma references_eq (ho : o ∈ objects.flatten) : h.image.references (h.covered.addr o.start)
    = .ok (((o.shape (h.image.word h.covered)).allPlaces o.start).map (Place.slot h.covered)) :=
  MemoryImage.references_eq (hw.shape_eq ho).1

/-- What a reference of an object holds. -/
lemma load_eq (ho : o ∈ objects.flatten) {b : Place}
    (hb : b ∈ (o.shape (h.image.word h.covered)).allPlaces o.start) :
    (h.image.read (b.slot h.covered)).load = .ok (b.load h.covered (h.image.value h.covered b))
      ∧ b.load h.covered (h.image.value h.covered b) < wordValues
      ∧ h.Points objects.flatten (b.load h.covered (h.image.value h.covered b)) := by
  obtain ⟨slots, hslots, hall⟩ := hw.readable o ho
  rw [hw.references_eq ho, Except.ok.injEq] at hslots
  obtain ⟨target, hload, hpoints⟩ := hall (b.slot h.covered) (hslots ▸ List.mem_map_of_mem hb)
  have hindex := Shape.index_of_mem_allPlaces hb
  have hfixed := (o.shape (h.image.word h.covered)).fixedWords_le
  rw [(hw.shape_eq ho).2] at hfixed
  have hpast := hw.past_le ho
  rw [Span.past] at hpast
  have hvalue : h.image.value h.covered b < b.values := Place.get_lt (hw.backs.word_lt _ (by omega))
  have hread := MemoryImage.read_slot hw.backs b
  rw [hread] at hload ⊢
  obtain ⟨heq, hlt⟩ := Place.of_load_cell hw.backs.codec hvalue hload
  exact ⟨heq ▸ hload, heq ▸ hlt, heq ▸ hpoints⟩

/-- What the references of an object hold. -/
lemma loads_iff (ho : o ∈ objects.flatten) : h.image.Loads (h.covered.addr o.start) a
    ↔ ∃ b ∈ (o.shape (h.image.word h.covered)).allPlaces o.start, b.load h.covered
      (h.image.value h.covered b) = a := by
  rw [MemoryImage.Loads, hw.references_eq ho]
  constructor
  · rintro ⟨slots, heq, slot, hslot, hload⟩
    cases heq
    obtain ⟨b, hb, rfl⟩ := List.mem_map.1 hslot
    rw [(hw.load_eq ho hb).1, Except.ok.injEq] at hload
    exact ⟨b, hb, hload⟩
  · rintro ⟨b, hb, rfl⟩
    exact ⟨_, rfl, _, List.mem_map_of_mem hb, (hw.load_eq ho hb).1⟩

end Heap.WellFormed

/-! ## Heaps with the same memory -/

namespace Heap

variable {h h' : Heap MemoryImage} {objs : List Span}

/-- What can be reached depends on the memory alone. -/
lemma reachable_congr (hcovered : h'.covered = h.covered) (himage : h'.image = h.image) :
    h'.Reachable objs roots o ↔ h.Reachable objs roots o := by
  constructor
  · intro hr
    induction hr with
    | root hmem hheld => exact .root hmem (hcovered ▸ hheld)
    | link _ hmem hloads ih => exact .link ih hmem (himage ▸ hcovered ▸ hloads)
  · intro hr
    induction hr with
    | root hmem hheld => exact .root hmem (hcovered.symm ▸ hheld)
    | link _ hmem hloads ih => exact .link ih hmem (by rw [himage, hcovered]; exact hloads)

/-- Heaps with the same spaces agree on what is outside of them. -/
lemma WellFormed.points_congr (hw : h.WellFormed zones objects) {old : List Span}
    (ho : h'.Orderly old zones) (hcovered : h'.covered = h.covered)
    (hgeometry : h'.table.geometry = h.table.geometry) :
    h'.Points objs a ↔ h.Points objs a := by
  rw [Points, Points, ho.liesOver.isInSpace_iff, hw.isInSpace_iff, hcovered, hgeometry]

/-- Heaps with the same spaces over the same memory are well-formed alike. -/
lemma WellFormed.transfer (hw : h.WellFormed zones objects) {old : List Span}
    (ho : h'.Orderly old zones) (hcovered : h'.covered = h.covered) (himage : h'.image = h.image)
    (hgeometry : h'.table.geometry = h.table.geometry) : h'.WellFormed zones objects := by
  refine ⟨⟨old, ho⟩, ?_, ?_, ?_, ?_, ?_, fun o hin => ?_⟩
  · rw [himage, hcovered]
    exact hw.backs
  · rw [hcovered]
    exact hw.base_le
  · rw [hcovered]
    exact hw.words_lt
  · rw [hgeometry]
    exact hw.tiled
  · rw [himage, hcovered]
    exact hw.sized
  · obtain ⟨slots, heq, hall⟩ := hw.readable o hin
    rw [himage, hcovered]
    exact ⟨slots, heq, fun slot hslot => (hall slot hslot).imp fun target ht =>
      ⟨ht.1, (hw.points_congr ho hcovered hgeometry).2 ht.2⟩⟩

end Heap

/-! ## An example -/

namespace Heap

/-- Three objects in one space: the first refers to the last one twice, the last one has a metadata
reference to the first, and nothing refers to the one in between. -/
def linked : Heap MemoryImage :=
  let image := fourRegions.image.setWord 64 (Shape.header { wide := 1, narrow := 1 })
  let image := (image.setWord 72 144).setWord 80 11
  let image := image.setWord 88 (Shape.header { payload := 6 })
  let image := (image.setWord 144 (Shape.header { payload := 2, metadata := true })).setWord 152 64
  { fourRegions with image }

/-- Its objects. -/
def linkedObjects : List (List Span) :=
  [[⟨0, 3⟩, ⟨3, 7⟩, ⟨10, 4⟩]]

lemma linked_orderly : linked.Orderly [] [⟨0, 0, 4, 14⟩] where
  consistent := ⟨RegionTable.laid_empty (by decide) (by decide) (by decide) (by decide),
    MarkBitmap.marks_unmarked (by decide), rfl, rfl, rfl⟩
  spaces_over := .cons ⟨rfl, rfl, rfl, rfl, by decide, by decide⟩ .nil
  ordered z hz := List.mem_singleton.1 hz ▸ ⟨by decide, by decide, by decide, by decide, by decide⟩
  keep_eq := by decide
  apart := List.pairwise_singleton _ _
  encloses _ ho := absurd ho List.not_mem_nil
  outside r _ := by
    rw [show linked.table.regions.get r = {} from Table.get_fresh ..]

lemma linked_points {o : Span} (ho : o ∈ linkedObjects.flatten) :
    linked.Points linkedObjects.flatten (linked.covered.addr o.start) :=
  fun _ => ⟨o, ho, rfl⟩

/-- The first object may be a root. -/
lemma linked_root : ∀ a ∈ [64], linked.Points linkedObjects.flatten a := fun a ha => by
  rw [List.mem_singleton.1 ha]
  exact linked_points (o := ⟨0, 3⟩) (by decide)

theorem linked_wellFormed : linked.WellFormed [⟨0, 0, 4, 14⟩] linkedObjects where
  orderly := ⟨[], linked_orderly⟩
  backs := ⟨rfl, by decide, by decide, rfl⟩
  base_le := by decide
  words_lt := by decide
  tiled := by
    have htiling : Tiling 0 [⟨0, 3⟩, ⟨3, 7⟩, ⟨10, 4⟩] 14 :=
      .cons (o := ⟨0, 3⟩) (by decide)
        (.cons (o := ⟨3, 7⟩) (by decide) (.cons (o := ⟨10, 4⟩) (by decide) (.nil 14)))
    exact .cons htiling .nil
  sized := by decide
  readable o ho := by
    have hfirst := linked_points (o := ⟨0, 3⟩) (by decide)
    have hlast := linked_points (o := ⟨10, 4⟩) (by decide)
    have hmem : o = ⟨0, 3⟩ ∨ o = ⟨3, 7⟩ ∨ o = ⟨10, 4⟩ := by simpa [linkedObjects] using ho
    rcases hmem with rfl | rfl | rfl
    · refine ⟨[.wide 72, .narrow 80], rfl, fun slot hslot => ?_⟩
      simp only [List.mem_cons, List.not_mem_nil, or_false] at hslot
      rcases hslot with rfl | rfl
      · exact ⟨144, rfl, hlast⟩
      · exact ⟨144, rfl, hlast⟩
    · exact ⟨[], rfl, fun _ hslot => absurd hslot List.not_mem_nil⟩
    · refine ⟨[.wide 152], rfl, fun slot hslot => ?_⟩
      rw [List.mem_singleton.1 hslot]
      exact ⟨64, rfl, hfirst⟩

end Heap

end MarkCompact
