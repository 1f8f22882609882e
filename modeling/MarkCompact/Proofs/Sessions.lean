import MarkCompact.Proofs.Creating
import MarkCompact.Proofs.Renewal

/-!
# Collectors in use

A host creates a collector, fills the spaces with objects, moves their tops, and from time to time
asks for a cycle.  Before a cycle it has to see to it that the spaces are filled with objects that
refer to objects; in between it may do to its memory what it likes.  `Collector.Reached` are the
collectors that come of this.

Main statements: `Reached.kept` (what holds of all of them), `Kept.invoke_eq` (what the next cycle
comes to) and `invoke_succeeds` (there is one).
-/

namespace MarkCompact

variable {objects : List (List Span)} {old : List Span} {zones zones' : List Zone} {strong : List ℕ}
  {i words : ℕ} {s s' : Space} {z z' : Zone}

/-! ## What a host has to see to -/

namespace Heap

/-- The spaces are filled with objects from their bottoms up to their tops, which refer to
objects. -/
structure HoldsObjects (h : Heap MemoryImage) (objects : List (List Span)) : Prop where
  backs : h.image.Backs h.covered
  /-- Narrow references count from the word in front of the memory. -/
  base_le : bytesPerWord ≤ h.covered.start
  /-- The system does not map as much memory as a header can say. -/
  words_lt : h.covered.words < sizeLimit
  tiled : List.Forall₂ (fun (s : Space) os => ∃ bottom top, s.bottom = h.covered.addr bottom
    ∧ s.top = h.covered.addr top
    ∧ Tiling bottom os top) h.spaces objects
  sized : ∀ o ∈ objects.flatten, h.image.objectWords (h.covered.addr o.start) = o.words
  readable : ∀ o ∈ objects.flatten, ∃ slots, h.image.references (h.covered.addr o.start) = .ok slots
    ∧ ∀ slot ∈ slots, ∃ target, (h.image.read slot).load = .ok target
    ∧ h.Points objects.flatten target

/-- A heap in order that holds objects is well-formed. -/
lemma HoldsObjects.wellFormed {h : Heap MemoryImage} (hh : h.HoldsObjects objects)
    (ho : h.Orderly old zones) :
    h.WellFormed zones objects where
  orderly := ⟨old, ho⟩
  backs := hh.backs
  base_le := hh.base_le
  words_lt := hh.words_lt
  tiled := by
    have hlength := hh.tiled.length_eq
    refine List.forall₂_iff_get.2 ⟨ho.spaces_over.length_eq.symm.trans hlength, fun j h1 h2 => ?_⟩
    have hs : j < h.spaces.length := hlength ▸ h2
    obtain ⟨bottom, top, hbottom, htop, htiling⟩ := hh.tiled.get hs h2
    have hover := ho.spaces_over.get hs h1
    rw [ho.consistent.covered] at hbottom htop
    obtain rfl := Extent.addr_inj.1 (hbottom.symm.trans hover.bottom)
    obtain rfl := Extent.addr_inj.1 (htop.symm.trans hover.top)
    exact htiling
  sized := hh.sized
  readable := hh.readable

/-- A well-formed heap holds objects. -/
lemma WellFormed.holdsObjects {h : Heap MemoryImage} (hw : h.WellFormed zones objects) :
    h.HoldsObjects objects where
  backs := hw.backs
  base_le := hw.base_le
  words_lt := hw.words_lt
  tiled := by
    obtain ⟨_, ho⟩ := hw.orderly
    have hlength := hw.tiled.length_eq
    refine List.forall₂_iff_get.2 ⟨hw.spaces_length.trans hlength, fun j h1 h2 => ?_⟩
    have hz : j < zones.length := hlength ▸ h2
    have hover := ho.spaces_over.get h1 hz
    rw [hw.covered_eq]
    exact ⟨_, _, hover.bottom, hover.top, hw.tiled.get hz h2⟩
  sized := hw.sized
  readable := hw.readable

end Heap

/-! ## Zones of the spaces -/

namespace Heap

variable {μ : Type} {h : Heap μ}

/-- The zones that the spaces lie over are those that they say. -/
lemma Orderly.zones_eq (ho : h.Orderly old zones) : h.zones = zones := by
  have hpos : 0 < h.table.geometry.regionBytes :=
    Nat.mul_pos h.table.geometry.regionWords_pos (by decide)
  refine List.ext_getElem (by rw [Heap.zones, List.length_map, ho.spaces_over.length_eq])
    fun j h1 h2 => ?_
  rw [Heap.zones, List.length_map] at h1
  have hover := ho.spaces_over.get h1 h2
  have hkeep := ho.keep_eq _ (List.getElem_mem h2)
  have hregion : ∀ r,
      (h.table.covered.addr (r * h.table.geometry.regionWords) - h.table.covered.start)
      / h.table.geometry.regionBytes = r := fun r => by
    rw [Extent.addr_eq, Nat.add_sub_cancel_left, show 8 * (r * h.table.geometry.regionWords)
      = r * h.table.geometry.regionBytes by
      rw [Geometry.regionBytes, bytesPerWord]
      ring]
    exact Nat.mul_div_cancel _ hpos
  have hword : ∀ w, (h.table.covered.addr w - h.table.covered.start) / bytesPerWord = w :=
    fun w => by
    rw [Extent.addr_eq, Nat.add_sub_cancel_left, bytesPerWord,
      Nat.mul_div_cancel_left _ (by decide)]
  simp only [List.get_eq_getElem] at hover
  simp only [Heap.zones, List.getElem_map, Space.zone, hover.bottom, hover.limit, hover.top,
    ho.consistent.covered, ho.consistent.geometry, hregion, hword]
  generalize zones[j] = z at hkeep
  cases z
  simp only at hkeep
  rw [hkeep]

end Heap

/-! ## Moving tops -/

/-- The regions of the zone. -/
def Zone.bounds (z : Zone) : ℕ × ℕ :=
  (z.first, z.last)

/-- Moving the top of a space moves the top of its zone. -/
lemma Space.zone_withTop (s : Space) (e : Extent) (g : Geometry) (w : ℕ) :
    ({ s with top := e.addr w } : Space).zone e g = { s.zone e g with top := w } := by
  simp only [Space.zone, Extent.addr_eq, Nat.add_sub_cancel_left, bytesPerWord,
    Nat.mul_div_cancel_left _ (by decide : 0 < 8)]

namespace Heap

variable {μ : Type} {h : Heap μ}

/-- Zones with the same regions have the same members, tops apart. -/
lemma exists_of_bounds (hbounds : zones.map Zone.bounds = zones'.map Zone.bounds) (hz : z ∈ zones) :
    ∃ z' ∈ zones', z'.first = z.first ∧ z'.last = z.last := by
  have hmem := List.mem_map_of_mem (f := Zone.bounds) hz
  rw [hbounds] at hmem
  obtain ⟨z', hz', heq⟩ := List.mem_map.1 hmem
  exact ⟨z', hz', congrArg Prod.fst heq, congrArg Prod.snd heq⟩

/-- What holds of the side tables does not depend on the tops. -/
lemma Orderly.withSpaces {spaces : List Space} (ho : h.Orderly old h.zones)
    (hbounds : h.zones.map Zone.bounds = ({ h with spaces } : Heap μ).zones.map Zone.bounds)
    (hover : ∀ s ∈ spaces, s.Over h.covered h.geometry.regionWords (s.zone h.covered h.geometry)
      ∧ (s.zone h.covered h.geometry).Ordered h.geometry.regionWords h.covered.words) :
    ({ h with spaces } : Heap μ).Orderly old ({ h with spaces } : Heap μ).zones where
  consistent := { ho.consistent with }
  spaces_over := by
    show List.Forall₂ _ spaces (spaces.map _)
    refine List.forall₂_map_right_iff.2 (List.forall₂_same.2 fun s hs => ?_)
    rw [← ho.consistent.covered, ← ho.consistent.geometry]
    exact (hover s hs).1
  ordered z hz := by
    obtain ⟨s, hs, rfl⟩ := List.mem_map.1 hz
    show Zone.Ordered _ h.table.geometry.regionWords h.table.covered.words
    rw [← ho.consistent.covered, ← ho.consistent.geometry]
    exact (hover s hs).2
  keep_eq z hz := by
    obtain ⟨s, _, rfl⟩ := List.mem_map.1 hz
    rfl
  apart := by
    have hpairs : (h.zones.map Zone.bounds).Pairwise fun a b => a.2 ≤ b.1 ∨ b.2 ≤ a.1 :=
      List.pairwise_map.2 ho.apart
    rw [hbounds] at hpairs
    rw [List.pairwise_map] at hpairs
    exact hpairs
  encloses o hin := by
    obtain ⟨z, hz, hencloses⟩ := ho.encloses o hin
    obtain ⟨z', hz', hfirst, hlast⟩ := exists_of_bounds hbounds hz
    refine ⟨z', hz', ?_⟩
    rw [Zone.Encloses, hfirst, hlast]
    exact hencloses
  outside r hr := ho.outside r fun z hz hin => by
    obtain ⟨z', hz', hfirst, hlast⟩ := exists_of_bounds hbounds hz
    exact hr z' hz' (by rw [hfirst, hlast]; exact hin)

/-- The spaces of a heap in order lie over their zones. -/
lemma Orderly.over (ho : h.Orderly old h.zones) (hs : s ∈ h.spaces) :
    s.Over h.covered h.geometry.regionWords (s.zone h.covered h.geometry)
      ∧ (s.zone h.covered h.geometry).Ordered h.geometry.regionWords h.covered.words := by
  have hall := List.forall₂_same.1 (List.forall₂_map_right_iff.1 ho.spaces_over) s hs
  have hord := ho.ordered _ (List.mem_map_of_mem hs)
  rw [← ho.consistent.covered, ← ho.consistent.geometry] at hall hord
  exact ⟨hall, hord⟩

/-- Moving a top leaves the regions of the zones as they are. -/
lemma bounds_setTop {top : ℕ} (hs : h.spaces[i]? = some s) (hset : s.setTop top = .ok s') :
    h.zones.map Zone.bounds = (h.setSpace i s').zones.map Zone.bounds := by
  rw [Space.setTop] at hset
  split at hset
  case isFalse => cases hset
  case isTrue =>
    cases hset
    simp only [Heap.zones, setSpace, List.map_map]
    refine List.ext_getElem? fun j => ?_
    rw [List.getElem?_map, List.getElem?_map]
    by_cases hj : i = j
    · subst hj
      rw [List.getElem?_set_self (List.getElem?_eq_some_iff.1 hs).1, hs]
      rfl
    · rw [List.getElem?_set_ne hj]

/-- The top of a space may be moved to any word of it. -/
lemma Orderly.setTop (ho : h.Orderly old h.zones) (hs : h.spaces[i]? = some s)
    (hset : s.setTop (s.bottom + bytesPerWord * words) = .ok s') :
    (h.setSpace i s').Orderly old (h.setSpace i s').zones := by
  have hbounds := bounds_setTop hs hset
  rw [Space.setTop] at hset
  split at hset
  case isFalse => cases hset
  case isTrue hin =>
    cases hset
    refine ho.withSpaces hbounds fun x hx => ?_
    rcases List.mem_or_eq_of_mem_set hx with hmem | rfl
    · exact ho.over hmem
    · obtain ⟨hover, hord⟩ := ho.over (List.mem_of_getElem? hs)
      have hmoved : s.bottom + bytesPerWord * words
          = h.covered.addr ((s.zone h.covered h.geometry).first * h.geometry.regionWords
            + words) := by
        rw [hover.bottom, Extent.addr_add]
      have hle := hin.2
      rw [hmoved, hover.limit, Extent.addr_le_addr] at hle
      rw [hmoved, Space.zone_withTop]
      exact ⟨⟨hover.bottom, hover.limit, rfl, hover.starts⟩,
        hord.first_lt_last, le_rfl, Nat.le_add_right .., hle, hord.last_le⟩

end Heap

/-! ## What happens to a collector -/

/-- The roots after a cycle that carries out the plan. -/
noncomputable def Plan.redirectRoots (p : Plan) (roots : Roots) : Roots :=
  ⟨roots.strong.map p.redirect, roots.weak.map p.redirectWeak⟩

namespace Collector

variable {c c' : Collector MemoryImage} {roots roots' : Roots} {requested : Bool}
  {summary : CycleSummary}

/-- What a host has to see to before a cycle. -/
structure Offers (c : Collector MemoryImage) (objects : List (List Span))
    (strong : List ℕ) : Prop where
  holds : c.heap.HoldsObjects objects
  points : ∀ a ∈ strong, c.heap.Points objects.flatten a
  /-- The number of tasks that dense prefixes are divided into is a word. -/
  tasks_lt : c.settings.workers * max c.settings.prefixTasksPerWorker 1 < wordValues

/-- The collectors that hosts come by: they create one, write to memory, move tops by words, and ask
for cycles when they have seen to what they have to. -/
inductive Reached : Collector MemoryImage → Prop
  | created {settings : Settings} {e : Extent} {configs : List SpaceConfig} {image : MemoryImage}
      {c : Collector MemoryImage} (aligned : bytesPerWord ∣ e.start)
      (created : create settings e configs image = .ok c) : Reached c
  | mutated {c : Collector MemoryImage} (reached : Reached c) (image : MemoryImage) :
      Reached { c with heap := { c.heap with image } }
  | topMoved {c : Collector MemoryImage} {i words : ℕ} {s s' : Space} (reached : Reached c)
      (space : c.heap.spaces[i]? = some s)
      (moved : s.setTop (s.bottom + bytesPerWord * words) = .ok s') :
      Reached { c with heap := c.heap.setSpace i s' }
  | collected {c c' : Collector MemoryImage} {objects : List (List Span)} {roots roots' : Roots}
      {requested : Bool} {summary : CycleSummary} (reached : Reached c)
      (offers : c.Offers objects roots.strong)
      (run : c.invoke roots requested = .ok (summary, roots', c')) : Reached c'

/-- What all cycles keep. -/
structure Kept (c : Collector MemoryImage) : Prop where
  orderly : ∃ old, c.heap.Orderly old c.heap.zones
  creates : Creates c.settings c.heap.covered c.heap.geometry (c.heap.spaces.map Space.config)
  limiter : c.limiter = .ofPercent c.settings.deadWoodMean c.settings.deadWoodDeviation
  aligned : bytesPerWord ∣ c.heap.covered.start

/-- A collector could be created with the tops where they are. -/
lemma Creates.of_bounds {μ : Type} {settings : Settings} {h h' : Heap μ} {old old' : List Span}
    (hc : Creates settings h.covered h.geometry (h.spaces.map Space.config))
    (ho : h.Orderly old h.zones) (ho' : h'.Orderly old' h'.zones)
    (hcovered : h'.covered = h.covered) (hgeometry : h'.geometry = h.geometry)
    (hbounds : h.zones.map Zone.bounds = h'.zones.map Zone.bounds)
    (haligned : bytesPerWord ∣ h.covered.start) :
    Creates settings h'.covered h'.geometry (h'.spaces.map Space.config) := by
  have hlength : h.spaces.length = h'.spaces.length := by
    simpa [Heap.zones] using congrArg List.length hbounds
  rw [hcovered, hgeometry]
  refine hc.of_same (List.forall₂_map_left_iff.2
    (List.forall₂_map_right_iff.2 (List.forall₂_iff_get.2 ⟨hlength, fun j h1 h2 => ?_⟩)))
  have hzones := congrArg (·[j]?) hbounds
  simp only [Heap.zones, List.map_map, List.getElem?_map, List.getElem?_eq_getElem h1,
    List.getElem?_eq_getElem h2, Option.map_some, Option.some.injEq, Function.comp_apply,
    Zone.bounds, Prod.mk.injEq] at hzones
  obtain ⟨hfirst, hlast⟩ := hzones
  obtain ⟨hover, _⟩ := ho.over (List.getElem_mem h1)
  obtain ⟨hover', hord'⟩ := ho'.over (List.getElem_mem h2)
  rw [hcovered, hgeometry] at hover' hord' hfirst hlast
  have hbelow := hord'.first_le_top
  have habove := hord'.top_le_last
  simp only [List.get_eq_getElem, Space.config]
  rw [hover'.bottom, hover'.limit, hover'.top, hover.bottom, hover.limit, hfirst, hlast]
  refine ⟨rfl, rfl, Extent.addr_le_addr.2 hbelow, Extent.addr_le_addr.2 habove,
    isAligned_word_iff.2 ?_⟩
  rw [Extent.addr_eq]
  exact Nat.dvd_add haligned (Nat.dvd_mul_right ..)

/-! ## The next cycle -/

/-- Whether the next cycle is a maximum compaction. -/
def nextMaximum (c : Collector MemoryImage) (requested : Bool) : Bool :=
  isMaximum c.settings requested (c.cycles + 1) c.lastMaximum

/-- The plan of the next cycle. -/
noncomputable def plan (c : Collector MemoryImage) (objects : List (List Span)) (strong : List ℕ)
    (requested : Bool) : Plan :=
  c.heap.plan c.heap.zones objects strong c.limiter (c.nextMaximum requested)

/-- The plan has a zone for every space. -/
lemma plan_zones_length (c : Collector MemoryImage) (objects : List (List Span)) (strong : List ℕ)
    (requested : Bool) :
    (c.plan objects strong requested).zones.length = c.heap.spaces.length := by
  rw [plan, Heap.plan, Heap.planZones, List.length_zipWith, List.length_map, Heap.zones,
    List.length_map, min_self]

/-- What the next cycle says that it has done, when it leaves the heap `h` to be settled. -/
noncomputable def outcome (c : Collector MemoryImage) (objects : List (List Span)) (roots : Roots)
    (requested : Bool) (h : Heap MemoryImage) : CycleSummary :=
  h.settled.summary (c.plan objects roots.strong requested) (c.nextMaximum requested) (c.cycles + 1)
    (c.heap.live objects roots.strong).length (c.heap.spaces.map Space.usedWords) roots.weak

/-- The collector after its next cycle, when that leaves the heap `h` to be settled. -/
def settled (c : Collector MemoryImage) (requested : Bool) (h : Heap MemoryImage) :
    Collector MemoryImage :=
  { c with
    heap := h.settled
    cycles := c.cycles + 1
    lastMaximum := if c.nextMaximum requested then c.cycles + 1 else c.lastMaximum }

namespace Kept

variable (hk : c.Kept)
include hk

lemma wellFormed (ho : c.Offers objects strong) : c.heap.WellFormed c.heap.zones objects := by
  obtain ⟨_, horderly⟩ := hk.orderly
  exact ho.holds.wellFormed horderly

/-- The next cycle succeeds and carries out its plan. -/
theorem invoke_eq (ho : c.Offers objects roots.strong) (requested : Bool) : ∃ h : Heap MemoryImage,
    (c.plan objects roots.strong requested).Compacted h ∧ c.heap.Tallies h c.heap.zones
      (c.heap.live objects roots.strong)
      ∧ c.invoke roots requested = .ok (c.outcome objects roots requested h,
        (c.plan objects roots.strong requested).redirectRoots roots, c.settled requested h) := by
  have hworkers : 0 < c.settings.workers := (Geometry.ofSettings_eq_ok hk.creates.geometry).1
  obtain ⟨out, _, heq, h, hcompacted, htallies, rfl, hout⟩ :
      Heap.Runs (runCycle c.settings c.limiter (c.nextMaximum requested) (c.cycles + 1)
        roots) c.heap _ :=
    (hk.wellFormed ho).runCycle_runs ho.points rfl hworkers ho.tasks_lt (c.cycles + 1)
  refine ⟨h, hcompacted, htallies, ?_⟩
  subst hout
  show (do
    let ((summary, roots),
        heap) ← (runCycle c.settings c.limiter (c.nextMaximum requested) (c.cycles + 1)
          roots).run c.heap
    pure (summary, roots, _)) = _
  rw [show (runCycle c.settings c.limiter (c.nextMaximum requested) (c.cycles + 1) roots).run c.heap
    = _ from heq]
  rfl

omit hk in
/-- The regions of the zones of a plan are those of the zones that it was made for. -/
lemma bounds_eq (objects : List (List Span)) (strong : List ℕ) (requested : Bool) :
    c.heap.zones.map Zone.bounds
      = (c.plan objects strong requested).settledZones.map Zone.bounds := by
  have hlength : (c.plan objects strong requested).zones.length = c.heap.zones.length := by
    rw [plan_zones_length, Heap.zones, List.length_map]
  refine List.ext_getElem
    (by rw [List.length_map, List.length_map, Plan.settledZones, List.length_map, hlength])
      fun j h1 h2 => ?_
  rw [List.length_map] at h1
  obtain ⟨z, _, hz, _, heq⟩ :=
    Heap.WellFormed.plan_zone_at
      (List.getElem?_eq_getElem (hlength ▸ h1 : j < (c.plan objects strong requested).zones.length))
  obtain ⟨_, rfl⟩ := List.getElem?_eq_some_iff.1 hz
  simp only [Plan.settledZones, List.getElem_map]
  rw [show (c.plan objects strong requested).zones[j] = _ from heq]
  rfl

/-- The next cycle can start from what a cycle leaves. -/
lemma settled {h : Heap MemoryImage} (hp : (c.plan objects strong requested).FitsMemory)
    (hc : (c.plan objects strong requested).Compacted h) : (c.settled requested h).Kept := by
  have horderly := hc.orderly hp.toValid
  have hzones := horderly.zones_eq
  obtain ⟨_, ho⟩ := hk.orderly
  have hcovered : h.settled.covered = c.heap.covered := hc.serves.covered
  have hgeometry : h.settled.geometry = c.heap.geometry :=
    hc.serves.geometry.trans ho.consistent.geometry.symm
  refine ⟨⟨_, hzones ▸ horderly⟩, ?_, hk.limiter, ?_⟩
  · exact hk.creates.of_bounds ho (hzones ▸ horderly) hcovered hgeometry
      (hzones ▸ bounds_eq objects strong requested) hk.aligned
  · rw [show (c.settled requested h).heap.covered = c.heap.covered from hcovered]
    exact hk.aligned

end Kept

theorem Reached.kept (hr : Reached c) : c.Kept := by
  induction hr with
  | created haligned hcreated =>
    obtain ⟨g, hcreates, rfl⟩ := create_eq_ok_iff.1 hcreated
    refine ⟨⟨[], hcreates.orderly haligned _⟩, ?_, rfl, haligned⟩
    rw [show (fresh _ _ g _ _).heap.spaces = List.map Space.ofConfig _ from rfl, List.map_map]
    exact (List.map_id _).symm ▸ hcreates
  | @mutated c _ image hk =>
    obtain ⟨old, ho⟩ := hk.orderly
    exact ⟨⟨old, { ho with consistent := { ho.consistent with } }⟩, hk.creates,
      hk.limiter, hk.aligned⟩
  | @topMoved c i words s s' _ hspace hmoved hk =>
    obtain ⟨old, ho⟩ := hk.orderly
    have horderly := ho.setTop hspace hmoved
    exact ⟨⟨old, horderly⟩,
      hk.creates.of_bounds ho horderly rfl rfl (Heap.bounds_setTop hspace hmoved) hk.aligned,
      hk.limiter, hk.aligned⟩
  | collected _ ho hrun hk =>
    obtain ⟨h, hc, _, heq⟩ := hk.invoke_eq ho _
    cases heq.symm.trans hrun
    exact hk.settled ((hk.wellFormed ho).plan_fits ho.points _ _) hc

/-- If a host has seen to what it has to, the next cycle succeeds: none of the checks on the way
fails, those of the result included. -/
theorem invoke_succeeds (hr : Reached c) (ho : c.Offers objects roots.strong) (requested : Bool) :
    ∃ summary roots' c', c.invoke roots requested = .ok (summary, roots', c') := by
  obtain ⟨h, _, _, heq⟩ := hr.kept.invoke_eq ho requested
  exact ⟨_, _, _, heq⟩

/-! ## An example -/

/-- The memory of the example: three objects, of which the first refers to the last one twice, the
last one has a metadata reference to the first, and nothing refers to the one in between. -/
def linkedImage : MemoryImage :=
  let image :=
    (MemoryImage.zeroed 64 512 ⟨56, 3⟩).setWord 64 (Shape.header { wide := 1, narrow := 1 })
  let image := (image.setWord 72 144).setWord 80 11
  let image := image.setWord 88 (Shape.header { payload := 6 })
  (image.setWord 144 (Shape.header { payload := 2, metadata := true })).setWord 152 64

/-- A collector over one region. -/
def linked : Collector MemoryImage :=
  fresh { workers := 2, regionLog := 6, blockLog := 4 } ⟨64, 512⟩ (.ofLogs 6 4 1 (by decide))
    [{ SpaceConfig.old "old" 64 576 with top := 176 }] linkedImage

lemma linked_creates : create { workers := 2, regionLog := 6, blockLog := 4 } ⟨64, 512⟩
    [{ SpaceConfig.old "old" 64 576 with top := 176 }] linkedImage = .ok linked :=
  create_eq_ok_iff.2 ⟨_, ⟨rfl, by decide, rfl, ⟨_, rfl⟩, ⟨_, rfl⟩, _, rfl⟩, rfl⟩

lemma linked_reached : Reached linked :=
  .created (by decide) linked_creates

/-- The host has seen to what it has to, with the first object for a root. -/
theorem linked_offers : linked.Offers Heap.linkedObjects [64] := by
  have hpoints : ∀ {o : Span}, o ∈ Heap.linkedObjects.flatten →
      linked.heap.Points Heap.linkedObjects.flatten (linked.heap.covered.addr o.start) :=
        fun ho _ => ⟨_, ho, rfl⟩
  have hfirst := hpoints (o := ⟨0, 3⟩) (by decide)
  have hlast := hpoints (o := ⟨10, 4⟩) (by decide)
  refine ⟨⟨⟨rfl, by decide, by decide, rfl⟩, by decide, by decide, ?_, by decide, fun o ho => ?_⟩,
    fun a ha => ?_, by decide⟩
  · have htiling : Tiling 0 [⟨0, 3⟩, ⟨3, 7⟩, ⟨10, 4⟩] 14 :=
      .cons (o := ⟨0, 3⟩) (by decide)
        (.cons (o := ⟨3, 7⟩) (by decide) (.cons (o := ⟨10, 4⟩) (by decide) (.nil 14)))
    exact .cons ⟨0, 14, rfl, rfl, htiling⟩ .nil
  · have hmem : o = ⟨0, 3⟩ ∨ o = ⟨3, 7⟩ ∨ o = ⟨10, 4⟩ := by simpa [Heap.linkedObjects] using ho
    rcases hmem with rfl | rfl | rfl
    · refine ⟨[.wide 72, .narrow 80], rfl, fun slot hslot => ?_⟩
      simp only [List.mem_cons, List.not_mem_nil, or_false] at hslot
      rcases hslot with rfl | rfl
      · exact ⟨144, rfl, hlast⟩
      · exact ⟨144, rfl, hlast⟩
    · exact ⟨[], rfl, fun _ hslot => absurd hslot List.not_mem_nil⟩
    · refine ⟨[.wide 152], rfl, fun slot hslot => ?_⟩
      rw [List.mem_singleton.1 hslot]
      exact ⟨64, rfl, hfirst⟩
  · rw [List.mem_singleton.1 ha]
    exact hfirst

/-- The example collector runs a cycle, with a weak root to the object that nothing refers to. -/
theorem invoke_succeeds_linked : Reached linked ∧ linked.Offers Heap.linkedObjects [64]
    ∧ ∃ summary roots' c', linked.invoke ⟨[64], [88]⟩ false = .ok (summary, roots', c') :=
  ⟨linked_reached, linked_offers, invoke_succeeds linked_reached linked_offers false⟩

end Collector

end MarkCompact
