import MarkCompact.Proofs.Repeating

/-!
# Cycles without a past

A cycle reads memory, the roots, and where the spaces lie and how far they are filled.  What earlier
cycles have left in the side tables and in the spaces does not matter: two collectors that agree on
the former do the same.  One of them may be new.

Main statements: `Resembles.invoke_eq` (collectors that resemble one another do the same) and
`Collector.history_independent`.
-/

namespace MarkCompact

variable {objects : List (List Span)} {strong : List ℕ} {a i : ℕ}

/-! ## What is observed of a heap -/

/-- Object starts are found from what is recorded and from the sizes of objects. -/
lemma StartTable.objectStart_congr {t t' : StartTable} {f f' : ℕ → ℕ}
    (hcovered : t'.covered = t.covered) (hrecorded : ∀ card, t'.recorded? card = t.recorded? card)
    (hwords : ∀ a, f' a = f a) :
    t'.objectStart f' a = t.objectStart f a := by
  have hbefore : ∀ card, t'.startBefore a card = t.startBefore a card := fun card => by
    induction card with
    | zero => rw [startBefore, startBefore, hrecorded, hcovered]
    | succ card ih => rw [startBefore, startBefore, hrecorded, ih]
  rw [objectStart, objectStart, cardOf, cardOf, hcovered, funext hwords, funext hbefore]

/-- Images with the same words hold objects of the same sizes. -/
lemma MemoryImage.objectWords_congr {image image' : MemoryImage} {e : Extent}
    (hstart : image.start = e.start) (hstart' : image'.start = e.start)
    (hword : ∀ w, image'.word e w = image.word e w) :
    image'.objectWords a = image.objectWords a := by
  have hat : ∀ {m : MemoryImage}, m.start = e.start →
      m.wordAt a = m.word e ((a - e.start) / bytesPerWord) := fun hm => by
    rw [word, wordAt, wordAt, indexOf_addr hm, indexOf, hm]
  rw [objectWords, objectWords, hat hstart, hat hstart', hword]

namespace Heap.SameResult

variable {h h' : Heap MemoryImage} (hs : h.SameResult h')
include hs

/-- The heaps are the same after their tops have been moved. -/
lemma settled : h.settled.SameResult h'.settled where
  words := hs.words
  infos := by
    have hcomm : ∀ spaces : List Space, (spaces.map Space.settled).map Space.info
        = (spaces.map Space.info).map Space.settled :=
      fun spaces => by
        rw [List.map_map, List.map_map]
        rfl
    exact (hcomm _).trans ((congrArg _ hs.infos).trans (hcomm _).symm)
  starts i s s' hi hi' card := by
    rw [Heap.settled, List.getElem?_map, Option.map_eq_some_iff] at hi hi'
    obtain ⟨s₀, hs₀, rfl⟩ := hi
    obtain ⟨s₀', hs₀', rfl⟩ := hi'
    exact hs.starts i s₀ s₀' hs₀ hs₀' card
  completed s hmem r h1 h2 := by
    obtain ⟨s₀, hs₀, rfl⟩ := List.mem_map.1 hmem
    exact hs.completed s₀ hs₀ r h1 h2

/-- Spaces with the same number are the same, recorded starts apart. -/
lemma map_info_eq (i : ℕ) : h'.spaces[i]?.map Space.info = h.spaces[i]?.map Space.info := by
  rw [← List.getElem?_map, ← List.getElem?_map]
  exact congrArg (·[i]?) hs.infos

/-- Addresses are in the spaces with the same numbers. -/
lemma spaceOf?_eq (hcovered : h'.covered = h.covered) : h'.spaceOf? a = h.spaceOf? a := by
  have hfind : ∀ spaces : List Space,
      spaces.findIdx? (·.contains a) = (spaces.map Space.info).findIdx? (·.contains a) :=
    fun spaces => by
      rw [List.findIdx?_map]
      rfl
  have hinfos : h'.spaces.map Space.info = h.spaces.map Space.info := hs.infos
  rw [spaceOf?, spaceOf?, isIn, isIn, hcovered, hfind, hinfos, ← hfind]

end Heap.SameResult

/-- What is summed up of the spaces does not depend on recorded starts. -/
lemma Heap.summaries_congr {μ : Type} {h h' : Heap μ} (hinfos : h'.infos = h.infos)
    (used : List ℕ) :
    h'.summaries used = h.summaries used := by
  have hmap : ∀ g : Heap μ, g.summaries used
      = (g.infos.zip used).map fun p =>
        ⟨p.1.name, p.2, p.1.newTop, p.1.densePrefix, p.1.liveWords⟩ := fun g => by
    rw [infos, List.zip_map_left, List.map_map]
    rfl
  rw [hmap, hmap, hinfos]

/-- What becomes of a space, recorded starts apart, follows from the zone that it is planned as and
from what is counted in it. -/
lemma Space.info_congr {s s' s₁ s₁' : Space} {e : Extent} {W : ℕ} {objs live : List Span}
    {z z₁ : Zone} (hm : s₁.Matches e W objs z₁) (hm' : s₁'.Matches e W objs z₁)
    (ht : s.Tallied s₁ W live z) (ht' : s'.Tallied s₁' W live z) (hconfig : s'.config = s.config) :
    s₁'.info = s₁.info := by
  simp only [config, SpaceConfig.mk.injEq] at hconfig
  obtain ⟨hname, _, _, _, hratio⟩ := hconfig
  simp only [info, mk.injEq]
  refine ⟨?_, hm'.bottom.trans hm.bottom.symm, hm'.limit.trans hm.limit.symm,
    hm'.top.trans hm.top.symm, hm'.newTop.trans hm.newTop.symm,
    hm'.densePrefix.trans hm.densePrefix.symm, ?_, ?_,
    ht'.liveWords.trans ht.liveWords.symm, ht'.liveObjects.trans ht.liveObjects.symm⟩
  · rw [ht'.name, ht.name, hname]
  · rw [ht'.deadRatio, ht.deadRatio, hratio]
  · rw [hm'.starts.covered, hm.starts.covered]

/-! ## Collectors that resemble one another -/

namespace Collector

/-- Object starts are found alike in heaps that are the same. -/
lemma objectStart_congr {c c' : Collector MemoryImage} (hs : c.heap.SameResult c'.heap)
    (hcovered : c'.heap.covered = c.heap.covered)
    (hstart : c.heap.image.start = c.heap.covered.start)
    (hstart' : c'.heap.image.start = c.heap.covered.start) (a : ℕ) :
    c'.objectStart a = c.objectStart a := by
  have hwords : ∀ a, c'.heap.image.objectWords a = c.heap.image.objectWords a := fun a =>
    MemoryImage.objectWords_congr hstart hstart' hs.words
  unfold objectStart
  rw [hs.spaceOf?_eq hcovered]
  cases c.heap.spaceOf? a with
  | none => rfl
  | some i =>
    have hinfo := hs.map_info_eq i
    rw [Option.bind_some, Option.bind_some]
    cases hspace : c.heap.spaces[i]? with
    | none =>
      rw [hspace, Option.map_none, Option.map_eq_none_iff] at hinfo
      rw [hinfo]
    | some s =>
      rw [hspace, Option.map_some, Option.map_eq_some_iff] at hinfo
      obtain ⟨s', hspace', hinfo⟩ := hinfo
      have hstarts : s'.starts.objectStart c'.heap.image.objectWords a
          = s.starts.objectStart c.heap.image.objectWords a :=
        StartTable.objectStart_congr (congrArg (·.starts.covered) hinfo)
          (hs.starts i s s' hspace hspace') hwords
      have htop : s'.top = s.top := by
        show s'.info.top = s.info.top
        rw [hinfo]
      have hmodel : ∀ m : MemoryImage, ObjectModel.objectWords m = m.objectWords := fun _ => rfl
      rw [hspace']
      simp only [hmodel, hstarts, htop]

/-- The collectors run on the same memory with the same limits, and their spaces are the same as a
host sees them. -/
structure Resembles (c c' : Collector MemoryImage) : Prop where
  covered : c'.heap.covered = c.heap.covered
  geometry : c'.heap.geometry = c.heap.geometry
  configs : c'.heap.spaces.map Space.config = c.heap.spaces.map Space.config
  image : c'.heap.image = c.heap.image
  settings : c'.settings = c.settings

namespace Resembles

variable {c c' : Collector MemoryImage} (hr : c.Resembles c')
include hr

/-- What a host hands over of the spaces is the same. -/
lemma map_eq {α : Type} (f : SpaceConfig → α) :
    (c'.heap.spaces.map fun s => f s.config) = c.heap.spaces.map fun s => f s.config := by
  have hmap := congrArg (List.map f) hr.configs
  rwa [List.map_map, List.map_map] at hmap

lemma zones_eq : c'.heap.zones = c.heap.zones := by
  rw [Heap.zones, Heap.zones, hr.covered, hr.geometry]
  exact hr.map_eq fun s => (Space.ofConfig s).zone c.heap.covered c.heap.geometry

variable (hk : c.Kept) (hk' : c'.Kept)
include hk hk'

lemma table_geometry : c'.heap.table.geometry = c.heap.table.geometry := by
  obtain ⟨_, ho⟩ := hk.orderly
  obtain ⟨_, ho'⟩ := hk'.orderly
  rw [← ho.consistent.geometry, ← ho'.consistent.geometry, hr.geometry]

lemma isInSpace_iff : c'.heap.isInSpace a = true ↔ c.heap.isInSpace a = true := by
  obtain ⟨_, ho⟩ := hk.orderly
  obtain ⟨_, ho'⟩ := hk'.orderly
  rw [ho.liesOver.isInSpace_iff, ho'.liesOver.isInSpace_iff, hr.covered, hr.table_geometry hk hk',
    hr.zones_eq]

/-- What can be offered to one of them can be offered to the other. -/
lemma offers (ho : c.Offers objects strong) : c'.Offers objects strong := by
  have hpoints : ∀ {a}, c.heap.Points objects.flatten a → c'.heap.Points objects.flatten a :=
    fun hp hin => by
    rw [hr.covered]
    exact hp ((hr.isInSpace_iff hk hk').1 hin)
  have hholds := ho.holds
  refine ⟨⟨?_, ?_, ?_, ?_, fun o hin => ?_, fun o hin => ?_⟩,
    fun a ha => hpoints (ho.points a ha), ?_⟩
  · rw [hr.image, hr.covered]
    exact hholds.backs
  · rw [hr.covered]
    exact hholds.base_le
  · rw [hr.covered]
    exact hholds.words_lt
  · have htiled : List.Forall₂ (fun (s : SpaceConfig) os => ∃ bottom top,
        s.bottom = c.heap.covered.addr bottom
        ∧ s.top = c.heap.covered.addr top
        ∧ Tiling bottom os top) (c.heap.spaces.map Space.config) objects :=
      List.forall₂_map_left_iff.2 hholds.tiled
    rw [hr.covered]
    exact List.forall₂_map_left_iff.1 (hr.configs ▸ htiled)
  · rw [hr.image, hr.covered]
    exact hholds.sized o hin
  · obtain ⟨slots, hslots, hload⟩ := hholds.readable o hin
    rw [hr.image, hr.covered]
    refine ⟨slots, hslots, fun slot hslot => ?_⟩
    obtain ⟨target, htarget, hp⟩ := hload slot hslot
    exact ⟨target, htarget, hpoints hp⟩
  · rw [hr.settings]
    exact ho.tasks_lt

variable {requested requested' : Bool}
  (hmaximum : c'.nextMaximum requested' = c.nextMaximum requested)
include hmaximum

/-- They plan the same. -/
lemma plan_eq : c'.plan objects strong requested' = c.plan objects strong requested := by
  have hlimiter : c'.limiter = c.limiter := by
    rw [hk'.limiter, hk.limiter, hr.settings]
  rw [plan, plan, hr.zones_eq, hlimiter, hmaximum]
  exact Heap.plan_congr hr.covered hr.image (hr.table_geometry hk hk')
    (hr.map_eq SpaceConfig.deadRatio)

variable {h h' : Heap MemoryImage}

omit hmaximum in
/-- Their cycles leave the same spaces. -/
lemma infos_eq (hc : (c.plan objects strong requested).Compacted h)
    (hc' : (c.plan objects strong requested).Compacted h')
    (htallies : c.heap.Tallies h c.heap.zones (c.heap.live objects strong))
    (htallies' : c'.heap.Tallies h' c'.heap.zones (c'.heap.live objects strong)) :
    h'.infos = h.infos := by
  have hlive : c'.heap.live objects strong = c.heap.live objects strong :=
    Heap.live_congr hr.covered hr.image
  rw [hlive, hr.zones_eq] at htallies'
  have hlengths : c'.heap.spaces.length = c.heap.spaces.length := by
    simpa only [List.length_map] using congrArg List.length hr.configs
  have hlength : h.spaces.length = c.heap.spaces.length :=
    hc.serves.spaces.length_eq.trans (plan_zones_length ..)
  have hlength' : h'.spaces.length = c.heap.spaces.length :=
    hc'.serves.spaces.length_eq.trans (plan_zones_length ..)
  refine List.ext_getElem
    (by rw [Heap.infos, Heap.infos, List.length_map, List.length_map, hlength, hlength'])
      fun j h1 h2 => ?_
  rw [Heap.infos, List.length_map] at h1 h2
  have hj : j < c.heap.spaces.length := hlength ▸ h2
  have hj' : j < c'.heap.spaces.length := hlengths ▸ hj
  have hplan : j < (c.plan objects strong requested).zones.length := by
    rw [plan_zones_length]
    exact hj
  have hzone : c.heap.zones[j]? = some (c.heap.spaces[j].zone c.heap.covered c.heap.geometry) := by
    rw [Heap.zones, List.getElem?_map, List.getElem?_eq_getElem hj, Option.map_some]
  have htally := htallies j _ _ _ (List.getElem?_eq_getElem hj) (List.getElem?_eq_getElem h2) hzone
  have htally' :=
    htallies' j _ _ _ (List.getElem?_eq_getElem hj') (List.getElem?_eq_getElem h1) hzone
  rw [hr.table_geometry hk hk'] at htally'
  have hconfig : c'.heap.spaces[j].config = c.heap.spaces[j].config := by
    have hget : (c'.heap.spaces.map Space.config)[j]? = (c.heap.spaces.map Space.config)[j]? :=
      congrArg (·[j]?) hr.configs
    simpa [hj, hj'] using hget
  simp only [Heap.infos, List.getElem_map]
  exact Space.info_congr (hc.serves.spaces.get h2 hplan) (hc'.serves.spaces.get h1 hplan) htally
    htally' hconfig

/-- They say the same of them, except for their own numbers. -/
lemma outcome_eq {roots : Roots} (hinfos : h'.infos = h.infos) :
    c'.outcome objects roots requested' h'
    = { c.outcome objects roots requested h with number := c'.cycles + 1 } := by
  have hused : c'.heap.spaces.map Space.usedWords = c.heap.spaces.map Space.usedWords :=
    hr.map_eq fun s => (s.top - s.bottom) / bytesPerWord
  rw [outcome, outcome, hr.plan_eq hk hk' hmaximum, hmaximum,
    Heap.live_congr hr.covered hr.image, hused]
  simp only [Heap.summary, Heap.summaries_settled, Heap.summaries_congr hinfos]

/-- Collectors that resemble one another do the same in their next cycles, if these are maximum
compactions or not alike. -/
theorem invoke_eq {roots : Roots} (ho : c.Offers objects roots.strong) : ∃ summary roots' c₁ c₁',
    c.invoke roots requested = .ok (summary, roots', c₁)
      ∧ c'.invoke roots requested' = .ok ({ summary with number := c'.cycles + 1 }, roots', c₁')
      ∧ c₁.heap.SameResult c₁'.heap ∧ ∀ a, c₁'.objectStart a = c₁.objectStart a := by
  obtain ⟨h, hc, htallies, heq⟩ := hk.invoke_eq ho requested
  obtain ⟨h', hc', htallies', heq'⟩ := hk'.invoke_eq (hr.offers hk hk' ho) requested'
  rw [hr.plan_eq hk hk' hmaximum] at hc' heq'
  have hinfos := hr.infos_eq hk hk' hc hc' htallies htallies'
  have hsame := (hc.sameResult hc' hinfos).settled
  rw [hr.outcome_eq hk hk' hmaximum hinfos] at heq'
  have hcovered : (c'.settled requested' h').heap.covered = (c.settled requested h).heap.covered :=
    hc'.serves.covered.trans hc.serves.covered.symm
  refine ⟨_, _, _, _, heq, heq', hsame, fun a => ?_⟩
  refine objectStart_congr hsame hcovered ?_ ?_ a
  · exact hc.backs.start_eq.trans (congrArg Extent.start hc.serves.covered).symm
  · exact hc'.backs.start_eq.trans (congrArg Extent.start hc.serves.covered).symm

end Resembles

/-- A new collector over the memory of another one. -/
lemma resembles_fresh (c : Collector MemoryImage) :
    c.Resembles (fresh c.settings c.heap.covered c.heap.geometry
      (c.heap.spaces.map Space.config) c.heap.image) where
  covered := rfl
  geometry := rfl
  configs := by
    show ((c.heap.spaces.map Space.config).map Space.ofConfig).map Space.config = _
    rw [List.map_map]
    exact List.map_id' _
  image := rfl
  settings := rfl

variable {c : Collector MemoryImage} {roots : Roots}

/-- Whatever has happened to a collector, its next cycle does what the first one of a new collector
does over the same memory, if that is a maximum compaction too or neither is. -/
theorem history_independent (hr : Reached c) (ho : c.Offers objects roots.strong) :
    ∃ c₀, create c.settings c.heap.covered (c.heap.spaces.map Space.config) c.heap.image = .ok c₀
      ∧ ∀ requested requested', c₀.nextMaximum requested' = c.nextMaximum requested →
        ∃ summary roots' c₁ c₁', c.invoke roots requested = .ok (summary, roots', c₁)
          ∧ c₀.invoke roots requested' = .ok ({ summary with number := 1 }, roots', c₁')
          ∧ c₁.heap.SameResult c₁'.heap ∧ ∀ a, c₁'.objectStart a = c₁.objectStart a := by
  have hk := hr.kept
  have hcreate : create c.settings c.heap.covered (c.heap.spaces.map Space.config) c.heap.image
      = .ok (fresh c.settings c.heap.covered c.heap.geometry (c.heap.spaces.map Space.config)
        c.heap.image) :=
    create_eq_ok_iff.2 ⟨_, hk.creates, rfl⟩
  exact ⟨_, hcreate, fun requested requested' hmaximum =>
    c.resembles_fresh.invoke_eq hk (Reached.created hk.aligned hcreate).kept hmaximum ho⟩

/-- After its first cycle the example collector goes on as a new one would. -/
theorem history_independent_linked :
    ∃ summary roots c, linked.invoke ⟨[64], [88]⟩ false = .ok (summary, roots, c)
    ∧ ∃ objects, Reached c ∧ c.Offers objects roots.strong
    ∧ ∃ c₀, create c.settings c.heap.covered (c.heap.spaces.map Space.config) c.heap.image = .ok c₀
      ∧ ∀ requested requested', c₀.nextMaximum requested' = c.nextMaximum requested →
        ∃ summary roots' c₁ c₁', c.invoke roots requested = .ok (summary, roots', c₁)
          ∧ c₀.invoke roots requested' = .ok ({ summary with number := 1 }, roots', c₁')
          ∧ c₁.heap.SameResult c₁'.heap ∧ ∀ a, c₁'.objectStart a = c₁.objectStart a := by
  have hoffers : linked.Offers Heap.linkedObjects (⟨[64], [88]⟩ : Roots).strong := linked_offers
  obtain ⟨h, hc, _, heq⟩ := linked_reached.kept.invoke_eq hoffers false
  have hreached : Reached (linked.settled false h) := .collected linked_reached hoffers heq
  have hnext := linked_reached.kept.offers_settled hoffers hc
  exact ⟨_, _, _, heq, _, hreached, hnext, history_independent hreached hnext⟩

end Collector

end MarkCompact
