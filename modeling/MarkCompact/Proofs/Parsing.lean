import MarkCompact.Proofs.Sessions

/-!
# Walking over a space

After a cycle a space can be walked over, object by object, from its bottom to its top, and the
start of the object around any address is known.  What the walk meets are the places of the objects
that could be reached, and in front of the end of the dense prefix fillers.

Main statements: `Plan.Compacted.tile_cases` (what there is to meet),
`Collector.Kept.objectStart_eq` (object starts) and `Collector.parses_after_cycle`.
-/

namespace MarkCompact

variable {objects : List (List Span)} {zones : List Zone} {strong : List ℕ} {o : Span} {z : Zone}
  {a i : ℕ} {limiter : Limiter} {maximum : Bool}

/-! ## The fillers of a plan -/

namespace Zone

/-- A filler of a zone starts in its dense prefix. -/
lemma filler_of_mem {W minimum : ℕ} {objs : List Span} (ho : o ∈ z.fillers W minimum objs) :
    z.Holds W o ∧ o.start < z.keep * W := by
  rw [fillers] at ho
  split at ho
  case isTrue hfilled =>
    rw [List.mem_singleton.1 ho]
    have hfiller := hfilled.2.2.choose_spec
    exact ⟨hfiller.holds, hfiller.start_lt⟩
  case isFalse => exact absurd ho List.not_mem_nil

end Zone

namespace Heap

variable {h : Heap MemoryImage}

/-- A filler of a plan starts in a dense prefix. -/
lemma filler_of_planned (ho : o ∈ h.planned zones objects strong limiter maximum) :
    ∃ z ∈ (h.plan zones objects strong limiter maximum).zones,
      z.Holds h.table.geometry.regionWords o
      ∧ o.start < z.keep * h.table.geometry.regionWords := by
  rw [planned, planFillers, List.mem_flatMap] at ho
  obtain ⟨z, hz, hin⟩ := ho
  exact ⟨z, List.mem_reverse.1 hz, Zone.filler_of_mem hin⟩

/-- In a maximum compaction there are no dense prefixes. -/
lemma plan_keep_maximum (hz : z ∈ (h.plan zones objects strong limiter true).zones) :
    z.keep = z.first := by
  obtain ⟨j, hj⟩ := List.mem_iff_getElem?.1 hz
  obtain ⟨_, _, _, _, rfl⟩ := WellFormed.plan_zone_at hj
  exact Zone.chosen_maximum

/-- Then there are no fillers. -/
lemma planned_maximum : h.planned zones objects strong limiter true = [] := by
  rw [planned, planFillers, List.flatMap_eq_nil_iff]
  intro z hz
  exact Zone.fillers_of_keep_eq (plan_keep_maximum (h := h) (List.mem_reverse.1 hz))

end Heap

/-! ## What a walk meets -/

namespace MemoryImage

/-- The object at a word is a filler if its header says so. -/
lemma isFiller_congr {image image' : MemoryImage} {e : Extent} {w w' : ℕ}
    (h : image'.word e w' = image.word e w) :
    image'.isFiller (e.addr w') = image.isFiller (e.addr w) := by
  show (image'.word e w' % 2 == fillerFlag) = (image.word e w % 2 == fillerFlag)
  rw [h]

end MemoryImage

namespace Heap.WellFormed

variable {h h₁ : Heap MemoryImage} (hw : h.WellFormed zones objects)
  (hpoints : ∀ a ∈ strong, h.Points objects.flatten a)
  (hc : (h.plan zones objects strong limiter maximum).Compacted h₁)
include hw hpoints hc

/-- A live object keeps its header. -/
lemma word_place_start (ho : o ∈ h.live objects strong) :
    h₁.image.word h.covered ((h.plan zones objects strong limiter maximum).place o).start
      = h.image.word h.covered o.start := by
  have hpos := hw.separate.words_pos o (mem_live.1 ho).mem
  rw [← hw.plan_memory hpoints ho (Span.covers_start hpos)]
  exact hc.header_place (hw.plan_fits hpoints limiter maximum) (List.mem_append_right _ ho)

/-- What fills a space after a cycle are the places of live objects and, in front of the end of a
dense prefix, fillers. -/
theorem tile_cases (ho : (h.plan zones objects strong limiter maximum).Tile o)
    (hz : z ∈ (h.plan zones objects strong limiter maximum).zones)
    (hhas : z.Has h.table.geometry.regionWords o.start) :
    (∃ q ∈ h.live objects strong, (h.plan zones objects strong limiter maximum).place q = o)
      ∨ (maximum = false ∧ h₁.image.word h.covered o.start = MemoryImage.fillerHeader o.words
        ∧ o.start < z.keep * h.table.geometry.regionWords) := by
  have hp := hw.plan_fits hpoints limiter maximum
  -- In a maximum compaction there is nothing but the live objects.
  have hnot : maximum = true → ∀ z ∈ (h.plan zones objects strong limiter maximum).zones,
      z.keep = z.first := by
    rintro rfl z hz
    exact plan_keep_maximum hz
  rcases ho with ⟨q, hq, rfl⟩ | hole
  · rcases List.mem_append.1 hq with hfiller | hlive
    · obtain ⟨z', hz', hholds, hlt⟩ := filler_of_planned hfiller
      have hmem := hp.separate.words_pos q hq
      have hhas' := hholds.has (hp.ordered z' hz') (Span.covers_start hmem)
      have hstay : (h.plan zones objects strong limiter maximum).forward q.start = q.start :=
        hp.forward_of_lt_keep hz' hhas'.1 hlt
      have hstart : ((h.plan zones objects strong limiter maximum).place q).start = q.start := hstay
      rw [hstart] at hhas ⊢
      obtain rfl := hp.eq_of_has hz hz' hhas hhas'
      have hheader := hc.header_place hp hq
      rw [hstart, hw.plan_memory_of_planned hpoints hfiller] at hheader
      refine Or.inr ⟨?_, hheader, hlt⟩
      cases maximum with
      | false => rfl
      | true =>
        have hnone : q ∈ h.planned zones objects strong limiter true := hfiller
        rw [planned_maximum] at hnone
        exact absurd hnone List.not_mem_nil
    · exact Or.inl ⟨q, hlive, rfl⟩
  · obtain ⟨z', hz', hole'⟩ := id hole
    have hpast : o.past = o.start + o.words := rfl
    have hpos := hole'.pos
    have hle := hole'.past_le
    have hfirst := hole'.first_le
    have hkeep := (hp.ordered z' hz').keep_le_top
    have htop := (hp.ordered z' hz').top_le_last
    obtain rfl := hp.eq_of_has hz hz' hhas ⟨hfirst, by omega⟩
    have hlt : o.start < z.keep * h.table.geometry.regionWords := lt_of_lt_of_le (by omega) hle
    refine Or.inr ⟨?_, hc.filled o hole, hlt⟩
    cases maximum with
    | false => rfl
    | true =>
      rw [hnot rfl z hz] at hlt
      exact absurd hlt (not_lt.2 hfirst)

end Heap.WellFormed

/-! ## Object starts -/

namespace Plan.Compacted

variable {p : Plan} {h : Heap MemoryImage} {s : Space} {c : Collector MemoryImage}

/-- After a cycle the start of the object around any address below the top of a space is found. -/
theorem objectStart_settled (hc : p.Compacted h) (hp : p.FitsMemory) (hsound : p.Sound)
    (hheap : c.heap = h.settled) (hz : p.zones[i]? = some z) (hs : h.spaces[i]? = some s)
    (hmatches : s.Matches p.covered p.regionWords p.objs z) (h1 : s.bottom ≤ a)
    (h2 : a < s.newTop) :
    ∃ o ∈ p.tiles z, p.covered.addr o.start ≤ a ∧ a < p.covered.addr o.past
      ∧ c.objectStart a = .ok (some (p.covered.addr o.start)) := by
  have hmem := List.mem_of_getElem? hz
  have hord := hp.ordered z hmem
  have htop := hord.newTop_le p.objs
  have hlast := hord.top_le_last
  rw [hmatches.bottom] at h1
  have hnewTop : s.newTop = p.covered.addr (z.newTop p.regionWords p.objs) := hmatches.newTop
  rw [hnewTop] at h2
  have hstart : p.covered.start ≤ p.covered.addr (z.first * p.regionWords) := by
    rw [Extent.addr_eq]
    omega
  -- The address is that of a byte of a word.
  have hbyte : a = p.covered.addr ((a - p.covered.start) / 8) + (a - p.covered.start) % 8 := by
    rw [Extent.addr_eq]
    omega
  have hd : (a - p.covered.start) % 8 < 8 := Nat.mod_lt _ (by decide)
  have hx1 := h1
  have hx2 := h2
  rw [hbyte] at hx1 hx2
  rw [Extent.addr_le_byte hd] at hx1
  rw [Extent.byte_lt_addr hd] at hx2
  obtain ⟨o, ho, hcov, heq⟩ := hc.objectStart_eq hp hsound hz hs hmatches hd hx1 hx2
  rw [← hbyte] at heq
  obtain ⟨htiling, htiles⟩ := hp.tiles_spec hmem
  obtain ⟨o', ho', hcov'⟩ := htiling.live hx1 hx2
  obtain rfl := hp.tile_eq_of_covers ho ((htiles o').1 ho').1 hcov hcov'
  refine ⟨o, ho', ?_, ?_, ?_⟩
  · rw [hbyte]
    exact (Extent.addr_le_byte hd).2 hcov.1
  · rw [hbyte]
    exact (Extent.byte_lt_addr hd).2 hcov.2
  · have horderly := hc.orderly hp.toValid
    have hcovered : h.settled.covered = p.covered := hc.serves.covered
    have hW : h.settled.table.geometry.regionWords = p.regionWords :=
      hc.serves.loaded.regionWords_eq
    have hzone : (p.zones.map fun z => z.settled p.regionWords p.objs)[i]?
        = some (z.settled p.regionWords p.objs) := by
      rw [List.getElem?_map, hz]
      rfl
    have hspace : h.settled.spaceOf? a = some i := by
      refine horderly.liesOver.spaceOf?_eq hzone ?_ ?_
      · rw [hcovered, hW]
        exact h1
      · rw [hcovered, hW]
        exact lt_of_lt_of_le h2 (Extent.addr_le_addr.2 (le_trans htop hlast))
    have hspaces : h.settled.spaces[i]? = some s.settled := by
      rw [Heap.settled, List.getElem?_map, hs]
      rfl
    rw [Collector.objectStart, hheap, hspace, Option.bind_some, hspaces]
    simp only [Space.settled, hnewTop, if_neg (not_le.2 h2)]
    show (do
      let start ← s.starts.objectStart h.image.objectWords a
      pure (some start)) = _
    rw [heq, ok_bind]
    rfl

end Plan.Compacted

/-! ## After a cycle -/

namespace Collector

variable {c : Collector MemoryImage} {roots : Roots}

/-- The space holds these objects from its bottom up to its top, as their headers say, and the start
of the one around any address is found. -/
structure Parses (c : Collector MemoryImage) (s : Space) (os : List Span) : Prop where
  tiled : ∃ bottom top, s.bottom = c.heap.covered.addr bottom ∧ s.top = c.heap.covered.addr top
    ∧ Tiling bottom os top
  sized : ∀ o ∈ os, c.heap.image.objectWords (c.heap.covered.addr o.start) = o.words
  starts : ∀ a, s.bottom ≤ a → a < s.top → ∃ o ∈ os, c.heap.covered.addr o.start ≤ a
    ∧ a < c.heap.covered.addr o.past
    ∧ c.objectStart a = .ok (some (c.heap.covered.addr o.start))

/-- The object at the place of a span is a filler. -/
def IsFiller (c : Collector MemoryImage) (o : Span) : Prop :=
  c.heap.image.isFiller (c.heap.covered.addr o.start) = true

namespace Kept

variable {requested : Bool} {h : Heap MemoryImage} {s : Space} (hk : c.Kept)
  (ho : c.Offers objects roots.strong) (hc : (c.plan objects roots.strong requested).Compacted h)
include hk ho hc

/-- After a cycle a space parses. -/
lemma parses (hz : (c.plan objects roots.strong requested).zones[i]? = some z)
    (hs : h.spaces[i]? = some s) :
    (c.settled requested h).Parses s.settled ((c.plan objects roots.strong requested).tiles z) := by
  have hw := hk.wellFormed ho
  have hp := hw.plan_fits ho.points c.limiter (c.nextMaximum requested)
  have hsound := hw.plan_sound ho.points c.limiter (c.nextMaximum requested)
  have hmem := List.mem_of_getElem? hz
  have hmatches : s.Matches (c.plan objects roots.strong requested).covered
      (c.plan objects roots.strong requested).regionWords
      (c.plan objects roots.strong requested).objs z := by
    obtain ⟨h1, rfl⟩ := List.getElem?_eq_some_iff.1 hs
    obtain ⟨h2, rfl⟩ := List.getElem?_eq_some_iff.1 hz
    exact hc.serves.spaces.get h1 h2
  have hcovered : (c.settled requested h).heap.covered
      = (c.plan objects roots.strong requested).covered := hc.serves.covered
  obtain ⟨htiling, htiles⟩ := hp.tiles_spec hmem
  refine ⟨⟨_, _, ?_, ?_, htiling⟩, fun o ho => ?_, fun a h1 h2 => ?_⟩
  · rw [hcovered]
    exact hmatches.bottom
  · rw [hcovered]
    exact hmatches.newTop
  · rw [hcovered]
    exact hc.objectWords_eq hp hsound ((htiles o).1 ho).1
  · rw [hcovered]
    exact hc.objectStart_settled hp hsound rfl hz hs hmatches h1 h2

/-- A filler that a walk meets after a cycle starts in a dense prefix, or it could be reached. -/
lemma filler_cases (hz : (c.plan objects roots.strong requested).zones[i]? = some z)
    (hs : h.spaces[i]? = some s) {o : Span}
    (hin : o ∈ (c.plan objects roots.strong requested).tiles z)
    (hfiller : (c.settled requested h).IsFiller o) :
    (∃ q, c.heap.Reachable objects.flatten roots.strong q ∧ c.IsFiller q
        ∧ (c.plan objects roots.strong requested).place q = o)
      ∨ (c.nextMaximum requested = false
        ∧ (c.settled requested h).heap.covered.addr o.start < s.settled.densePrefix) := by
  have hw := hk.wellFormed ho
  have hp := hw.plan_fits ho.points c.limiter (c.nextMaximum requested)
  have hmem := List.mem_of_getElem? hz
  have hcovered : (c.settled requested h).heap.covered = c.heap.covered := hc.serves.covered
  obtain ⟨htile, hhas⟩ := ((hp.tiles_spec hmem).2 o).1 hin
  rw [IsFiller, hcovered] at hfiller
  rw [hcovered]
  rcases hw.tile_cases ho.points hc htile hmem hhas with ⟨q, hq, rfl⟩ | ⟨hmaximum, _, hlt⟩
  · refine Or.inl ⟨q, Heap.mem_live.1 hq, ?_, rfl⟩
    rw [IsFiller, ← MemoryImage.isFiller_congr (hw.word_place_start ho.points hc hq)]
    exact hfiller
  · refine Or.inr ⟨hmaximum, ?_⟩
    obtain ⟨h1, rfl⟩ := List.getElem?_eq_some_iff.1 hs
    obtain ⟨h2, rfl⟩ := List.getElem?_eq_some_iff.1 hz
    have hdense := (hc.serves.spaces.get h1 h2).densePrefix
    simp only [List.get_eq_getElem] at hdense
    rw [Space.settled, hdense]
    exact Extent.addr_lt_addr.2 hlt

/-- In a maximum compaction the new top lies as many words behind the bottom as live objects
have. -/
lemma newTop_maximum (htallies : c.heap.Tallies h c.heap.zones (c.heap.live objects roots.strong))
    (hmaximum : c.nextMaximum requested = true)
    (hz : (c.plan objects roots.strong requested).zones[i]? = some z) (hs : h.spaces[i]? = some s) :
    s.newTop = s.bottom + bytesPerWord * s.liveWords := by
  have hw := hk.wellFormed ho
  have hp : (c.plan objects roots.strong requested).FitsMemory :=
    hw.plan_fits ho.points c.limiter (c.nextMaximum requested)
  have hmem := List.mem_of_getElem? hz
  have hobjs : (c.plan objects roots.strong requested).objs = c.heap.live objects roots.strong := by
    show c.heap.planned c.heap.zones objects roots.strong c.limiter (c.nextMaximum requested) ++ _
      = _
    rw [hmaximum, Heap.planned_maximum, List.nil_append]
  have hkeep : z.keep = z.first := by
    rw [plan, hmaximum] at hmem
    exact Heap.plan_keep_maximum hmem
  obtain ⟨z₀, s₀, hz₀, hs₀, heq⟩ := Heap.WellFormed.plan_zone_at hz
  have hheld : z.held c.heap.table.geometry.regionWords (c.heap.live objects roots.strong)
      = z₀.held c.heap.table.geometry.regionWords (c.heap.live objects roots.strong) := by
    rw [heq]
    rfl
  have htop := Zone.newTop_eq_add_sum hp.separate (hp.ordered z hmem) hkeep (hp.bounds hmem)
  have hsum : (c.plan objects roots.strong requested).regionWords
      = c.heap.table.geometry.regionWords := rfl
  have hlive := (htallies i s₀ s z₀ hs₀ hs hz₀).liveWords
  obtain ⟨h1, rfl⟩ := List.getElem?_eq_some_iff.1 hs
  obtain ⟨h2, rfl⟩ := List.getElem?_eq_some_iff.1 hz
  have hmatches := hc.serves.spaces.get h1 h2
  simp only [List.get_eq_getElem] at hmatches
  have hnewTop : h.spaces[i].newTop = (c.plan objects roots.strong requested).covered.addr
      ((c.plan objects roots.strong requested).zones[i].newTop
        (c.plan objects roots.strong requested).regionWords
        (c.plan objects roots.strong requested).objs) := hmatches.newTop
  rw [hnewTop, hmatches.bottom, hlive, ← hheld, htop, hobjs, hsum, Extent.addr_eq, Extent.addr_eq,
    bytesPerWord]
  omega

end Kept

/-- After a cycle every space parses.  A filler that is met is at the place of a filler that could
be reached, or else it starts in the dense prefix and the cycle was no maximum compaction; after a
maximum compaction there is nothing but live objects. -/
theorem parses_after_cycle (hr : Reached c) (ho : c.Offers objects roots.strong)
    (requested : Bool) :
    ∃ summary roots' c' tiles, c.invoke roots requested = .ok (summary, roots', c')
      ∧ c'.heap.HoldsObjects tiles
      ∧ List.Forall₂ (fun s os => c'.Parses s os ∧ s.top = s.newTop
        ∧ (∀ o ∈ os, c'.IsFiller o →
          (∃ q, c.heap.Reachable objects.flatten roots.strong q ∧ c.IsFiller q
            ∧ (c.plan objects roots.strong requested).place q = o)
          ∨ (summary.maximum = false ∧ c'.heap.covered.addr o.start < s.densePrefix))
        ∧ (summary.maximum = true → s.newTop = s.bottom + bytesPerWord * s.liveWords))
          c'.heap.spaces tiles := by
  have hk := hr.kept
  obtain ⟨h, hc, htallies, heq⟩ := hk.invoke_eq ho requested
  have hsettled :=
    hc.wellFormed ((hk.wellFormed ho).plan_selfContained ho.points c.limiter
      (c.nextMaximum requested))
  refine ⟨_, _, _, (c.plan objects roots.strong requested).settledObjects, heq,
    hsettled.holdsObjects, ?_⟩
  refine List.forall₂_map_left_iff.2 (List.forall₂_map_right_iff.2 ?_)
  refine List.forall₂_iff_get.2 ⟨hc.serves.spaces.length_eq, fun j h1 h2 => ?_⟩
  have hs := List.getElem?_eq_getElem h1
  have hz := List.getElem?_eq_getElem h2
  refine ⟨hk.parses ho hc hz hs, rfl, fun o hin hfiller => ?_, fun hmaximum => ?_⟩
  · exact hk.filler_cases ho hc hz hs hin hfiller
  · have htop := hk.newTop_maximum ho hc htallies hmaximum hz hs
    exact htop

/-- The example collector is parsed after a cycle. -/
theorem parses_after_cycle_linked : Reached linked ∧ linked.Offers Heap.linkedObjects [64]
    ∧ ∃ summary roots' c' tiles, linked.invoke ⟨[64], [88]⟩ false = .ok (summary, roots', c')
    ∧ c'.heap.HoldsObjects tiles
      ∧ List.Forall₂ (fun s os => c'.Parses s os ∧ s.top = s.newTop
        ∧ (∀ o ∈ os, c'.IsFiller o →
          (∃ q, linked.heap.Reachable Heap.linkedObjects.flatten [64] q ∧ linked.IsFiller q
            ∧ (linked.plan Heap.linkedObjects [64] false).place q = o)
          ∨ (summary.maximum = false ∧ c'.heap.covered.addr o.start < s.densePrefix))
        ∧ (summary.maximum = true → s.newTop = s.bottom + bytesPerWord * s.liveWords))
          c'.heap.spaces tiles :=
  ⟨linked_reached, linked_offers, parses_after_cycle linked_reached linked_offers false⟩

end Collector

end MarkCompact
