import MarkCompact.Proofs.Survivors

/-!
# Weak roots after a cycle

Weak roots are adjusted last of all, when the fillers of the dense prefixes are marked like objects.
So one to a word of an object that can be reached follows the object, one to a word of a filler
stays, and every other one into a space is cleared. Which words the fillers have does not need the
plan: they are the dead words in front of the end of a dense prefix, from the last object on, if the
word at the end is dead too.  Then the cycle leaves a weak root to a dead object.  In a maximum
compaction there is no such word, and a weak root is cleared exactly if its word cannot be reached.

Main statements: `Zone.live_fillers_iff` (which words the filler of a zone has),
`WellFormed.weakCarried` (what becomes of one weak root), `Collector.weakRoots_after_cycle` and
`Collector.weakRoots_after_maximum`.
-/

namespace MarkCompact

variable {objects : List (List Span)} {zones : List Zone} {strong : List ℕ} {objs : List Span}
  {o : Span} {z : Zone} {a b g i k top w W : ℕ} {limiter : Limiter} {maximum : Bool}

/-! ## The words of fillers -/

/-- Where objects may have one word, a filler ends at the boundary. -/
lemma Filler.past_eq (h : Filler objs a b top 1 o) : o.past = b := by
  have hlt := h.start_lt
  have hle := h.boundary_le
  by_contra hne
  have hone := h.least (by omega)
  simp only [Span.past] at hle hne
  omega

/-- Dead words behind an object, or from the bottom on, can be filled up to the boundary. -/
lemma filler_of_dead (hag : a ≤ g) (hgb : g < b) (htop : b ≤ top) (hdead : Dead objs g b)
    (hfollows : g = a ∨ ∃ o ∈ objs, o.past = g) : Filler objs a b top 1 ⟨g, b - g⟩ := by
  have hpast : (⟨g, b - g⟩ : Span).past = b := by
    simp only [Span.past]
    omega
  exact
    { bottom_le := hag
      start_lt := hgb
      boundary_le := hpast.ge
      past_le := hpast.trans_le htop
      dead := hpast.symm ▸ hdead
      follows := hfollows
      minimum_le := Nat.sub_pos_of_lt hgb
      least := fun hlt => absurd hlt (by omega) }

/-- A filler for a boundary in front of which words are dead. -/
lemma exists_filler (haw : a ≤ w) (hwb : w < b) (htop : b ≤ top) (hdead : Dead objs w b) :
    ∃ o, Filler objs a b top 1 o := by
  -- Going left one comes to the bottom or behind an object.
  induction w, haw using Nat.le_induction with
  | base => exact ⟨_, filler_of_dead le_rfl hwb htop hdead (Or.inl rfl)⟩
  | succ w haw ih =>
    by_cases hlive : Live objs w
    · obtain ⟨o, ho, hstart, hpast⟩ := hlive
      have hend : o.past = w + 1 := by
        by_contra hne
        exact hdead (w + 1) le_rfl hwb ⟨o, ho, by omega, by omega⟩
      exact ⟨_, filler_of_dead (by omega) hwb htop hdead (Or.inr ⟨o, ho, hend⟩)⟩
    · apply ih (by omega)
      intro x h1 h2
      rcases Nat.eq_or_lt_of_le h1 with rfl | hlt
      · exact hlive
      · exact hdead x hlt h2

/-- A filler reaches as far to the left as words are dead. -/
lemma Filler.start_le (h : Filler objs a b top 1 o) (hsep : Separate objs) (haw : a ≤ w)
    (hdead : Dead objs w b) :
    o.start ≤ w := by
  by_contra hlt
  have hstart := h.start_lt
  rcases h.follows with heq | ⟨o', ho', hpast⟩
  · omega
  · have hpos := hsep.start_lt_past ho'
    exact hdead (o.start - 1) (by omega) (by omega) ⟨o', ho', by omega, by omega⟩

namespace Zone

/-- The filler of a zone has the dead words in front of the end of its dense prefix, if the word at
the end is dead too. -/
theorem live_fillers_iff (hsep : Separate objs) (htop : z.keep * W ≤ z.top) :
    Live (z.fillers W 1 objs) w ↔ z.first * W ≤ w ∧ w < z.keep * W ∧ Dead objs w
      (z.keep * W + 1) := by
  constructor
  · intro hlive
    obtain ⟨o, ho, hcov⟩ := hlive
    simp only [fillers] at ho
    split at ho
    case isFalse => simp at ho
    case isTrue hfilled =>
      have hfiller := hfilled.2.2.choose_spec
      simp only [List.mem_singleton] at ho
      rw [← ho] at hfiller
      have hpast := hfiller.past_eq
      refine ⟨hfiller.bottom_le.trans hcov.1, hpast ▸ hcov.2, ?_⟩
      intro x h1 h2
      rcases Nat.eq_or_lt_of_le (Nat.le_of_lt_succ h2) with rfl | hlt
      · exact hfilled.2.1.2
      · exact hfiller.dead x (hcov.1.trans h1) (hpast.symm ▸ hlt)
  · rintro ⟨h1, h2, hdead⟩
    have hbefore : Dead objs w (z.keep * W) := hdead.mono le_rfl (Nat.le_succ _)
    have hfilled : z.first < z.keep ∧ CrossedByDead objs (z.keep * W)
        ∧ ∃ o, Filler objs (z.first * W) (z.keep * W) z.top 1 o :=
      ⟨Nat.lt_of_mul_lt_mul_right (lt_of_le_of_lt h1 h2),
        ⟨hdead _ (by omega) (by omega), hdead _ h2.le (Nat.lt_succ_self _)⟩,
        exists_filler h1 h2 htop hbefore⟩
    have hfiller := hfilled.2.2.choose_spec
    refine ⟨_, by rw [fillers, dif_pos hfilled]; exact List.mem_singleton_self _,
      hfiller.start_le hsep h1 hbefore, ?_⟩
    rw [hfiller.past_eq]
    exact h2

end Zone

/-! ## Words at the end of a dense prefix -/

namespace Heap

/-- The word lies in the dense prefix of a space, and from there up to the word at the end of the
prefix, that one included, no word belongs to one of the objects. -/
def AtPrefixEnd {μ : Type} (h : Heap μ) (objs : List Span) (w : ℕ) : Prop :=
  ∃ s ∈ h.spaces, s.bottom ≤ h.covered.addr w ∧ h.covered.addr w < s.densePrefix
    ∧ ∀ x, w ≤ x → h.covered.addr x ≤ s.densePrefix → ¬Live objs x

/-- What a cycle from the heap `h` to the heap `h'` makes of a weak root, if the objects `live` can
be reached and `place` says where they go. -/
inductive WeakCarried (h h' : Heap MemoryImage) (live : List Span) (place : Span → Span) :
    ℕ → ℕ → Prop
  | outside {a : ℕ} (out : h.isInSpace a = false) : WeakCarried h h' live place a a
  | follows {o : Span} {k : ℕ} (mem : o ∈ live) (lt : k < o.words) :
      WeakCarried h h' live place (h.covered.addr (o.start + k))
        (h.covered.addr ((place o).start + k))
  | stays {w : ℕ} (atEnd : h'.AtPrefixEnd live w) :
      WeakCarried h h' live place (h.covered.addr w) (h.covered.addr w)
  | cleared {w : ℕ} (inSpace : h.isInSpace (h.covered.addr w) = true) (dead : ¬Live live w)
      (notAtEnd : ¬h'.AtPrefixEnd live w) : WeakCarried h h' live place (h.covered.addr w) 0

/-- Where no word is at the end of a dense prefix, a weak root into a space becomes null exactly if
it does not refer to a word of an object that can be reached. -/
lemma WeakCarried.eq_zero_iff {h h' : Heap MemoryImage} {live : List Span}
    {place : Span → Span} {a' : ℕ} (hcarried : h.WeakCarried h' live place a a')
    (hbase : 0 < h.covered.start) (hnone : ∀ w, ¬h'.AtPrefixEnd live w)
    (hin : h.isInSpace a = true) :
    a' = 0 ↔ ∀ o ∈ live, ¬(h.covered.addr o.start ≤ a ∧ a < h.covered.addr o.past) := by
  cases hcarried with
  | outside out => exact absurd hin (Bool.eq_false_iff.1 out)
  | follows mem lt =>
    obtain ⟨h1, h2⟩ := Span.covers_add lt
    refine iff_of_false ?_ fun hall =>
      hall _ mem ⟨Extent.addr_le_addr.2 h1, Extent.addr_lt_addr.2 h2⟩
    simp only [Extent.addr_eq]
    omega
  | stays atEnd => exact absurd atEnd (hnone _)
  | cleared _ dead _ =>
    exact iff_of_true rfl fun o ho hcov =>
      dead ⟨o, ho, Extent.addr_le_addr.1 hcov.1, Extent.addr_lt_addr.1 hcov.2⟩

end Heap

namespace Plan

variable {p : Plan} {h : Heap MemoryImage}

/-- After a cycle the ends of the dense prefixes are those of the plan. -/
lemma Compacted.atPrefixEnd_iff (hc : p.Compacted h) : h.settled.AtPrefixEnd objs w
    ↔ ∃ z ∈ p.zones, z.first * p.regionWords ≤ w ∧ w < z.keep * p.regionWords ∧ Dead objs w
      (z.keep * p.regionWords + 1) := by
  have hcovered : h.settled.covered = p.covered := hc.serves.covered
  have hlength := hc.serves.spaces.length_eq
  -- A space and its zone say the same.
  have hspace : ∀ (j : ℕ) (h1 : j < h.spaces.length) (h2 : j < p.zones.length),
      (h.spaces[j].bottom ≤ p.covered.addr w ∧ p.covered.addr w < h.spaces[j].densePrefix
          ∧ ∀ x, w ≤ x → p.covered.addr x ≤ h.spaces[j].densePrefix → ¬Live objs x)
        ↔ p.zones[j].first * p.regionWords ≤ w ∧ w < p.zones[j].keep * p.regionWords
          ∧ Dead objs w (p.zones[j].keep * p.regionWords + 1) := by
    intro j h1 h2
    have hmatches := hc.serves.spaces.get h1 h2
    simp only [List.get_eq_getElem] at hmatches
    simp only [hmatches.bottom, hmatches.densePrefix, Extent.addr_le_addr, Extent.addr_lt_addr,
      Dead, Nat.lt_succ_iff]
  rw [Heap.AtPrefixEnd, hcovered]
  constructor
  · rintro ⟨_, hs, hend⟩
    obtain ⟨s, hmem, rfl⟩ := List.mem_map.1 hs
    obtain ⟨j, hj, rfl⟩ := List.mem_iff_getElem.1 hmem
    exact ⟨_, List.getElem_mem (hlength ▸ hj), (hspace j hj (hlength ▸ hj)).1 hend⟩
  · rintro ⟨z, hz, hend⟩
    obtain ⟨j, hj, rfl⟩ := List.mem_iff_getElem.1 hz
    exact ⟨_, List.mem_map_of_mem (List.getElem_mem (hlength ▸ hj)),
      (hspace j (hlength ▸ hj) hj).2 hend⟩

/-- A weak root that is not null is cleared exactly if it is null afterwards. -/
lemma FitsMemory.clears_iff (hp : p.FitsMemory) : p.Clears a ↔ a ≠ 0 ∧ p.redirectWeak a = 0 := by
  have hbase : 0 < p.covered.start := lt_of_lt_of_le (by decide) hp.base_le
  constructor
  · rintro ⟨hin, hdead⟩
    exact ⟨hin.ne_zero hbase, by rw [redirectWeak, if_pos hin, if_neg hdead]⟩
  · rintro ⟨hne, hzero⟩
    have hin : p.InSpace a := by
      by_contra hout
      rw [redirectWeak, if_neg hout] at hzero
      exact hne hzero
    refine ⟨hin, fun hlive => ?_⟩
    rw [redirectWeak, if_pos hin, if_pos hlive, Extent.addr_eq] at hzero
    omega

/-- So the weak roots that are cleared are those that become null. -/
lemma FitsMemory.countP_clears (hp : p.FitsMemory) (weak : List ℕ) : weak.countP p.Clears
    = (weak.zip (weak.map p.redirectWeak)).countP fun (a, a') => a ≠ 0 ∧ a' = 0 := by
  rw [← List.map_prod_left_eq_zip, List.countP_map]
  refine List.countP_congr fun a _ => ?_
  simpa using hp.clears_iff

end Plan

/-! ## What becomes of a weak root -/

namespace Heap

variable {h h₁ : Heap MemoryImage}

/-- In a maximum compaction no word lies in a dense prefix. -/
lemma not_atPrefixEnd_maximum (hc : (h.plan zones objects strong limiter maximum).Compacted h₁)
    (hmaximum : maximum = true) :
    ¬h₁.settled.AtPrefixEnd objs w := by
  subst hmaximum
  intro hend
  obtain ⟨z, hz, h1, h2, _⟩ := hc.atPrefixEnd_iff.1 hend
  rw [plan_keep_maximum hz] at h2
  omega

namespace WellFormed

variable (hw : h.WellFormed zones objects) (hpoints : ∀ a ∈ strong, h.Points objects.flatten a)
include hw hpoints

/-- Which words the fillers of a plan have. -/
lemma live_planned_iff : Live (h.planned zones objects strong limiter maximum) w
    ↔ ∃ z ∈ (h.plan zones objects strong limiter maximum).zones,
      z.first * h.table.geometry.regionWords ≤ w
      ∧ w < z.keep * h.table.geometry.regionWords ∧ Dead (h.live objects strong) w
        (z.keep * h.table.geometry.regionWords + 1) := by
  have hsep : Separate (h.live objects strong) := hw.separate.filter _
  have hfillers : ∀ z ∈ (h.plan zones objects strong limiter maximum).zones,
      (Live (z.fillers h.table.geometry.regionWords 1 (h.live objects strong)) w ↔ _) := fun z hz =>
    Zone.live_fillers_iff hsep ((hw.plan_fits hpoints limiter maximum).ordered z hz).keep_le_top
  constructor
  · rintro ⟨o, ho, hcov⟩
    rw [planned, planFillers, List.mem_flatMap] at ho
    obtain ⟨z, hz, hin⟩ := ho
    have hmem : z ∈ (h.plan zones objects strong limiter maximum).zones := List.mem_reverse.1 hz
    exact ⟨z, hmem, (hfillers z hmem).1 ⟨o, hin, hcov⟩⟩
  · rintro ⟨z, hz, hend⟩
    obtain ⟨o, ho, hcov⟩ := (hfillers z hz).2 hend
    exact ⟨o, List.mem_flatMap.2 ⟨z, List.mem_reverse.2 hz, ho⟩, hcov⟩

/-- A weak root, aligned if it points into a space, follows its object, stays at the end of a dense
prefix or is cleared. -/
theorem weakCarried (hc : (h.plan zones objects strong limiter maximum).Compacted h₁)
    (hstart : bytesPerWord ∣ h.covered.start) (haligned : h.isInSpace a = true → bytesPerWord ∣ a) :
    h.WeakCarried h₁.settled (h.live objects strong)
      (h.plan zones objects strong limiter maximum).place a
      ((h.plan zones objects strong limiter maximum).redirectWeak a) := by
  have hp := hw.plan_fits hpoints limiter maximum
  by_cases hin : (h.plan zones objects strong limiter maximum).InSpace a
  case neg =>
    rw [Plan.redirectWeak, if_neg hin]
    exact .outside (Bool.eq_false_iff.2 fun hspace => hin (hw.plan_inSpace_iff.2 hspace))
  have hspace := hw.plan_inSpace_iff.1 hin
  obtain ⟨w, rfl⟩ : ∃ w, a = h.covered.addr w :=
    ⟨_, hin.eq_addr hp.toValid hstart (haligned hspace)⟩
  have hend : h₁.settled.AtPrefixEnd (h.live objects strong) w ↔ _ := hc.atPrefixEnd_iff
  -- A word of an object of the plan goes where the plan says.
  have hgoes : Live (h.plan zones objects strong limiter maximum).objs w →
      (h.plan zones objects strong limiter maximum).redirectWeak (h.covered.addr w)
        = h.covered.addr ((h.plan zones objects strong limiter maximum).forward w) := fun hlive =>
    (Plan.redirectWeak_addr hin hlive).trans (Plan.redirect_addr hin)
  by_cases hreach : Live (h.live objects strong) w
  · obtain ⟨o, ho, h1, h2⟩ := hreach
    have hmem := List.mem_append_right (h.planned zones objects strong limiter maximum) ho
    have hk : w - o.start < o.words := by
      rw [Span.past] at h2
      omega
    obtain ⟨k, rfl⟩ := Nat.exists_eq_add_of_le h1
    rw [Nat.add_sub_cancel_left] at hk
    rw [hgoes (live_of_mem hmem ⟨h1, h2⟩), hp.forward_add hmem hk]
    exact .follows ho hk
  · by_cases hplanned : Live (h.planned zones objects strong limiter maximum) w
    · obtain ⟨z, hz, h1, h2, hdead⟩ := (hw.live_planned_iff hpoints).1 hplanned
      obtain ⟨o, ho, hcov⟩ := hplanned
      rw [hgoes (live_of_mem (List.mem_append_left _ ho) hcov), hp.forward_of_lt_keep hz h1 h2]
      exact .stays (hend.2 ⟨z, hz, h1, h2, hdead⟩)
    · have hdead : ¬Live (h.plan zones objects strong limiter maximum).objs w := by
        rintro ⟨o, ho, hcov⟩
        rcases List.mem_append.1 ho with hfiller | hmem
        · exact hplanned ⟨o, hfiller, hcov⟩
        · exact hreach ⟨o, hmem, hcov⟩
      have hword : (h.plan zones objects strong limiter maximum).wordOf (h.covered.addr w) = w :=
        Plan.wordOf_addr _ w
      rw [Plan.redirectWeak, if_pos hin, hword, if_neg hdead]
      exact .cleared hspace hreach fun hatEnd =>
        hplanned ((hw.live_planned_iff hpoints).2 (hend.1 hatEnd))

end WellFormed

end Heap

/-! ## After a cycle -/

namespace Collector

variable {c : Collector MemoryImage} {roots : Roots}

/-- A cycle takes every weak root to where its object goes, leaves it if it points out of the spaces
or into the dead words at the end of a dense prefix, and clears it otherwise; those that become null
are counted.  A maximum compaction leaves none in dead words. -/
theorem weakRoots_after_cycle (hr : Reached c) (ho : c.Offers objects roots.strong)
    (haligned : ∀ a ∈ roots.weak, c.heap.isInSpace a = true → bytesPerWord ∣ a) (requested : Bool) :
    ∃ summary roots' c' place, c.invoke roots requested = .ok (summary, roots', c')
      ∧ (∀ o, c.heap.Reachable objects.flatten roots.strong o →
        c.heap.Survives c'.heap objects place o)
      ∧ List.Forall₂ (c.heap.WeakCarried c'.heap
        (c.heap.live objects roots.strong) place) roots.weak roots'.weak
      ∧ (summary.weakCleared = (roots.weak.zip roots'.weak).countP fun (a, a') => a ≠ 0 ∧ a' = 0)
      ∧ (summary.maximum = true → ∀ w, ¬c'.heap.AtPrefixEnd
        (c.heap.live objects roots.strong) w) := by
  have hk := hr.kept
  have hw := hk.wellFormed ho
  have hp : (c.plan objects roots.strong requested).FitsMemory :=
    hw.plan_fits ho.points c.limiter (c.nextMaximum requested)
  obtain ⟨h, hc, _, heq⟩ := hk.invoke_eq ho requested
  refine ⟨_, _, _, (c.plan objects roots.strong requested).place, heq, ?_, ?_,
    hp.countP_clears _, ?_⟩
  · intro o hreach
    have hsurvives := hw.survives ho.points hc (Heap.mem_live.2 hreach)
    exact ⟨hsurvives.words, hsurvives.header, hsurvives.payload, hsurvives.references⟩
  · refine List.forall₂_map_right_iff.2 (List.forall₂_same.2 fun a ha => ?_)
    exact hw.weakCarried ho.points hc hk.aligned (haligned a ha)
  · intro hmaximum w
    exact Heap.not_atPrefixEnd_maximum hc hmaximum

/-- A maximum compaction makes null exactly the weak roots into the spaces that do not refer to a
word of an object that can be reached. -/
theorem weakRoots_after_maximum (hr : Reached c) (ho : c.Offers objects roots.strong)
    (haligned : ∀ a ∈ roots.weak, c.heap.isInSpace a = true → bytesPerWord ∣ a) (requested : Bool) :
    ∃ summary roots' c', c.invoke roots requested = .ok (summary, roots', c')
      ∧ (summary.maximum = true → List.Forall₂ (fun a a' => c.heap.isInSpace a = true →
        (a' = 0 ↔ ∀ o, c.heap.Reachable objects.flatten roots.strong o →
          ¬(c.heap.covered.addr o.start ≤ a ∧ a < c.heap.covered.addr o.past))) roots.weak
            roots'.weak) := by
  obtain ⟨summary, roots', c', place, heq, -, hcarried, -, hnone⟩ :=
    weakRoots_after_cycle hr ho haligned requested
  have hbase : 0 < c.heap.covered.start := lt_of_lt_of_le (by decide) ho.holds.base_le
  refine ⟨summary, roots', c', heq, fun hmaximum => hcarried.imp ?_⟩
  intro a a' hone hin
  simp only [hone.eq_zero_iff hbase (hnone hmaximum) hin, Heap.mem_live]

end Collector

end MarkCompact
