import MarkCompact.Proofs.Survival

/-!
# The heap after a cycle

What a cycle leaves is a well-formed heap again: its objects are the tiles of its spaces, the places
of the old objects and the fillers of the dense prefixes.  What could be reached from the strong
roots can be reached from the new ones.

Main statements: `Plan.Compacted.wellFormed` and `WellFormed.reachable_place`.
-/

namespace MarkCompact

variable {p : Plan} {o : Span} {z : Zone} {a i : ℕ} {strong : List ℕ}

/-! ## The tiles of a zone -/

namespace Plan

open Classical in
/-- The tiles of a zone, from the bottom to the new top. -/
noncomputable def tiles (p : Plan) (z : Zone) : List Span :=
  if h : ∃ tiles, Tiling (z.first * p.regionWords) tiles (z.newTop p.regionWords p.objs)
    ∧ ∀ o, o ∈ tiles ↔ p.Tile o ∧ z.Has p.regionWords o.start
  then h.choose else []

/-- The zones after the cycle. -/
def settledZones (p : Plan) : List Zone :=
  p.zones.map fun z => z.settled p.regionWords p.objs

/-- The objects after the cycle, fillers included. -/
noncomputable def settledObjects (p : Plan) : List (List Span) :=
  p.zones.map p.tiles

namespace Valid

variable (hp : p.Valid)
include hp

lemma tiles_spec (hz : z ∈ p.zones) :
    Tiling (z.first * p.regionWords) (p.tiles z) (z.newTop p.regionWords p.objs)
    ∧ ∀ o, o ∈ p.tiles z ↔ p.Tile o ∧ z.Has p.regionWords o.start := by
  rw [tiles, dif_pos (hp.tiling hz)]
  exact (hp.tiling hz).choose_spec

lemma mem_settledObjects : o ∈ p.settledObjects.flatten ↔ p.Tile o := by
  rw [settledObjects, List.mem_flatten]
  constructor
  · rintro ⟨_, hmem, ho⟩
    obtain ⟨z, hz, rfl⟩ := List.mem_map.1 hmem
    exact (((hp.tiles_spec hz).2 o).1 ho).1
  · intro ho
    obtain ⟨z, hz, h1, h2⟩ := hp.exists_zone_of_tile ho
    have hpos := hp.tile_pos ho
    have htop := (hp.ordered z hz).newTop_le p.objs
    have hpast : o.past = o.start + o.words := rfl
    exact ⟨_, List.mem_map_of_mem hz,
      ((hp.tiles_spec hz).2 o).2 ⟨ho, (hp.ordered z hz).has_of_le h1 (by omega)⟩⟩

end Valid

/-- A reference to an object is redirected to its place. -/
lemma Valid.redirect_start (hp : p.Valid) (ho : o ∈ p.objs) :
    p.redirect (p.covered.addr o.start) = p.covered.addr (p.place o).start :=
  redirect_addr (hp.inSpace (live_of_mem ho (Span.covers_start (hp.separate.words_pos o ho))))

namespace Compacted

variable {h : Heap MemoryImage} (hc : p.Compacted h) (hp : p.SelfContained)
include hc hp

/-- An object at its place has the header that it had. -/
lemma ofHeader_place (ho : o ∈ p.objs) :
    Shape.ofHeader (h.image.word p.covered (p.place o).start) = .ok (p.shape o) := by
  rw [hc.header_place hp.fits ho]
  exact hp.sound.shape_eq o ho

/-- The references of an object at its place. -/
lemma references_place (ho : o ∈ p.objs) : h.image.references (p.covered.addr (p.place o).start)
    = .ok (((p.shape o).allPlaces 0).map fun b => (b.behind (p.place o).start).slot p.covered) := by
  rw [MemoryImage.references_eq (hc.ofHeader_place hp ho), Shape.allPlaces_eq, List.map_map]
  rfl

/-- What a reference of an object at its place is read as. -/
lemma read_place (ho : o ∈ p.objs) {b : Place} (hb : b ∈ (p.shape o).allPlaces 0) :
    (h.image.read ((b.behind (p.place o).start).slot p.covered)).load
      = .ok (p.redirect (b.load p.covered (b.get (p.memory (o.start + b.index))))) := by
  have hrefers := hp.refers ho hb
  have hload := hc.load_place hp ho hb
  rw [← Place.load_behind p.covered (p.place o).start] at hload
  rw [MemoryImage.read_slot hc.backs, Place.load_cell hc.backs.codec, hload]
  rw [hload]
  exact lt_of_le_of_lt (hrefers.known.redirect_le hp.fits.toValid) hrefers.load_lt

omit hp in
/-- A hole has become a filler without references. -/
lemma references_hole (ho : p.Hole o) : h.image.references (p.covered.addr o.start) = .ok [] := by
  obtain ⟨_, _, hole⟩ := id ho
  have hheader := MemoryImage.ofHeader_fillerHeader hole.pos
  rw [← hc.filled o ho] at hheader
  rw [MemoryImage.references_eq hheader]
  rfl

/-! ## The next heap -/

lemma settled_isInSpace_iff : h.settled.isInSpace a = true ↔ p.InSpace a := by
  have hinZones := (hc.orderly hp.fits.toValid).liesOver.isInSpace_iff (a := a)
  rw [hinZones, show h.settled.covered = p.covered from hc.serves.covered,
    show h.settled.table.geometry.regionWords = p.regionWords from hc.serves.loaded.regionWords_eq]
  constructor
  · rintro ⟨_, hmem, hbounds⟩
    obtain ⟨z, hz, rfl⟩ := List.mem_map.1 hmem
    exact ⟨z, hz, hbounds⟩
  · rintro ⟨z, hz, hbounds⟩
    exact ⟨_, List.mem_map_of_mem hz, hbounds⟩

/-- The new address of an object is that of an object. -/
lemma settled_points (hlinked : p.InSpace a → ∃ o ∈ p.objs, a = p.covered.addr o.start) :
    h.settled.Points p.settledObjects.flatten (p.redirect a) := fun hin => by
  rw [hc.settled_isInSpace_iff hp] at hin
  by_cases hspace : p.InSpace a
  · obtain ⟨o, ho, rfl⟩ := hlinked hspace
    refine ⟨p.place o, hp.fits.mem_settledObjects.2 (Or.inl ⟨o, ho, rfl⟩), ?_⟩
    rw [hp.fits.redirect_start ho]
    exact congrArg (fun e : Extent => e.addr (p.place o).start) hc.serves.covered.symm
  · rw [redirect_of_not_inSpace hspace] at hin
    exact absurd hin hspace

/-- A cycle leaves a well-formed heap. -/
theorem wellFormed : h.settled.WellFormed p.settledZones p.settledObjects where
  orderly := ⟨_, hc.orderly hp.fits.toValid⟩
  backs := by
    rw [show h.settled.covered = p.covered from hc.serves.covered]
    exact hc.backs
  base_le := by
    rw [show h.settled.covered = p.covered from hc.serves.covered]
    exact hp.fits.base_le
  words_lt := by
    rw [show h.settled.covered = p.covered from hc.serves.covered]
    exact hp.fits.words_lt
  tiled := by
    rw [show h.settled.table.geometry.regionWords = p.regionWords from
      hc.serves.loaded.regionWords_eq]
    refine List.forall₂_map_left_iff.2 (List.forall₂_map_right_iff.2
      (List.forall₂_same.2 fun z hz => ?_))
    exact (hp.fits.tiles_spec hz).1
  sized o ho := by
    rw [show h.settled.covered = p.covered from hc.serves.covered]
    exact hc.objectWords_eq hp.fits hp.sound (hp.fits.mem_settledObjects.1 ho)
  readable o ho := by
    rw [show h.settled.covered = p.covered from hc.serves.covered]
    rcases hp.fits.mem_settledObjects.1 ho with ⟨q, hq, rfl⟩ | hole
    · refine ⟨_, hc.references_place hp hq, fun slot hslot => ?_⟩
      obtain ⟨b, hb, rfl⟩ := List.mem_map.1 hslot
      exact ⟨_, hc.read_place hp hq hb, hc.settled_points hp (hp.linked q hq b hb)⟩
    · exact ⟨[], hc.references_hole hole, fun _ hslot => absurd hslot List.not_mem_nil⟩

end Compacted

end Plan

/-! ## What can be reached -/

namespace Heap.WellFormed

variable {h h₁ : Heap MemoryImage} {zones : List Zone} {objects : List (List Span)}
  {limiter : Limiter} {maximum : Bool}

/-- The place of an object that could be reached can be reached. -/
theorem reachable_place (hw : h.WellFormed zones objects)
    (hpoints : ∀ a ∈ strong, h.Points objects.flatten a)
    (hc : (h.plan zones objects strong limiter maximum).Compacted h₁)
    (hr : h.Reachable objects.flatten strong o) :
    h₁.settled.Reachable (h.plan zones objects strong limiter maximum).settledObjects.flatten
      (strong.map (h.plan zones objects strong limiter maximum).redirect)
      ((h.plan zones objects strong limiter maximum).place o) := by
  have hp := hw.plan_selfContained hpoints limiter maximum
  have hcovered : h₁.settled.covered = h.covered := hc.serves.covered
  have hmem : ∀ {q : Span}, h.Reachable objects.flatten strong q →
      q ∈ (h.plan zones objects strong limiter maximum).objs :=
    fun hq => List.mem_append_right _ (mem_live.2 hq)
  have htile : ∀ {q : Span}, h.Reachable objects.flatten strong q →
      (h.plan zones objects strong limiter maximum).place q
      ∈ (h.plan zones objects strong limiter maximum).settledObjects.flatten :=
    fun hq => hp.fits.mem_settledObjects.2 (Or.inl ⟨_, hmem hq, rfl⟩)
  induction hr with
  | root hmemo hheld =>
    have hreach := Reachable.root hmemo hheld
    refine .root (htile hreach) ?_
    rw [hcovered]
    exact (hp.fits.redirect_start (hmem hreach)) ▸ List.mem_map_of_mem hheld
  | @link q q' hq hmemo hloads ih =>
    have hreach := Reachable.link hq hmemo hloads
    refine .link ih (htile hreach) ?_
    -- The reference to the object is at the place of the other one, redirected.
    obtain ⟨_, hplace, hload⟩ := (hw.loads_iff hq.mem).1 hloads
    rw [Shape.allPlaces_eq] at hplace
    obtain ⟨b, hb, rfl⟩ := List.mem_map.1 hplace
    have hb' : b ∈ ((h.plan zones objects strong limiter maximum).shape q).allPlaces 0 :=
      (hw.plan_shape hpoints (mem_live.2 hq)).symm ▸ hb
    have hread := hc.read_place hp (hmem hq) hb'
    rw [hw.plan_load hpoints (mem_live.2 hq) hb] at hread
    rw [Place.load_behind] at hload
    rw [show (h.plan zones objects strong limiter maximum).covered = h.covered from rfl,
      hload] at hread
    rw [hcovered]
    refine ⟨_, hc.references_place hp (hmem hq), _, List.mem_map_of_mem hb', hread.trans ?_⟩
    exact congrArg _ (hp.fits.redirect_start (hmem hreach))

end Heap.WellFormed

end MarkCompact
