import MarkCompact.Proofs.Survivors

/-!
# Compacting twice

After a maximum compaction the spaces hold the objects that can be reached, packed without a gap.
Another maximum compaction then finds every word below the tops live, and moves none.

Main statements: `WellFormed.plan_still` (nothing moves where everything can be reached),
`Kept.reachable_after_maximum` (after a maximum compaction everything can) and
`Collector.maximum_idempotent`.
-/

namespace MarkCompact

variable {objects : List (List Span)} {zones : List Zone} {strong : List ℕ} {objs : List Span}
  {o : Span} {z : Zone} {b : Place} {a i k w x W : ℕ} {limiter : Limiter}

/-! ## Plans that move nothing -/

/-- Live words behind one another from the end of the dense prefix on are packed to where they
are. -/
lemma Zone.packed_of_full (hx : z.keep * W ≤ x)
    (hfull : ∀ w, z.keep * W ≤ w → w < x → Live objs w) : z.packed W objs x = x := by
  rw [packed, liveBelow_of_live hx hfull]
  omega

namespace Plan

variable {p : Plan}

/-- Every live word stays where it is. -/
def Still (p : Plan) : Prop :=
  ∀ w, Live p.objs w → p.forward w = w

/-- Without dense prefixes nothing moves if every word below the tops is live. -/
lemma Valid.still_of_full (hp : p.Valid) (hkeep : ∀ z ∈ p.zones, z.keep = z.first)
    (hfull : ∀ z ∈ p.zones, ∀ w, z.first * p.regionWords ≤ w → w < z.top → Live p.objs w) :
    p.Still := fun w hw => by
  obtain ⟨z, hz, hhas, htop⟩ := hp.exists_zone hw
  have hle : z.keep * p.regionWords ≤ w := by
    rw [hkeep z hz]
    exact hhas.1
  rw [hp.forward_eq hz hhas, Zone.forward, if_neg (not_lt.2 hle)]
  refine Zone.packed_of_full hle fun x h1 h2 => hfull z hz x ?_ (lt_trans h2 htop)
  rwa [← hkeep z hz]

namespace Still

variable (hs : p.Still)
include hs

lemma redirect_eq (hknown : p.Known a) : p.redirect a = a := by
  by_cases hin : p.InSpace a
  · obtain ⟨w, rfl, hw⟩ := hknown hin
    rw [redirect_addr hin, hs w hw]
  · exact redirect_of_not_inSpace hin

lemma redirectAt_eq (hp : p.FitsMemory) (hrefers : p.Refers b x) : p.redirectAt b x = x := by
  by_cases hin : p.InSpace (b.load p.covered x)
  · obtain ⟨w, heq, hw⟩ := hrefers.known hin
    rw [Plan.redirectAt_eq hin heq, hs w hw]
    have hbase := hp.base_le
    have haddr : p.covered.addr w = p.covered.start + 8 * w := Extent.addr_eq ..
    rw [bytesPerWord] at hbase
    cases b with
    | word j => exact heq.symm
    | half j =>
      have hload : (if x = 0 then 0 else p.covered.start - bytesPerWord + 8 * x)
          = p.covered.addr w := heq
      show w + 1 = x
      rw [bytesPerWord] at hload
      split at hload <;> omega
  · exact redirectAt_of_not_inSpace hin

/-- No word is copied. -/
lemma received_eq (D : ℕ) : p.received D = 0 := by
  classical
  rw [received, arrivals, Finset.card_eq_zero, Finset.filter_eq_empty_iff]
  rintro x _ ⟨w, hw, heq, hne⟩
  exact hne ((hs w hw).symm.trans heq)

lemma wordsCopied_eq : p.totals.wordsCopied = 0 := by
  rw [totals, List.sum_eq_zero]
  intro n hn
  obtain ⟨D, _, rfl⟩ := List.mem_map.1 hn
  exact hs.received_eq D

/-- The references of an object are redirected to what they are. -/
lemma redirectWord_eq (hp : p.FitsMemory) (hsound : p.Sound) (ho : o ∈ p.objs) (k : ℕ) :
    p.redirectWord (p.shape o) k (p.memory (o.start + k)) = p.memory (o.start + k) :=
  (Shape.word_redirected (fun b hb => (hs.redirectAt_eq hp (hsound.refers o ho b hb)).symm)
    (fun _ _ => rfl) k).symm

/-- Every live word is what it was. -/
lemma word_eq {h : Heap MemoryImage} (hc : p.Compacted h) (hp : p.FitsMemory) (hsound : p.Sound)
    (hw : Live p.objs w) :
    h.image.word p.covered w = p.memory w := by
  obtain ⟨o, ho, hcov⟩ := hw
  have hk : w - o.start < o.words := by
    have h1 := hcov.1
    have h2 := hcov.2
    rw [Span.past] at h2
    omega
  have hword := hc.word_place hp.toValid ho hk
  rw [hs.redirectWord_eq hp hsound ho,
    hs o.start (live_of_mem ho (Span.covers_start (hp.separate.words_pos o ho)))] at hword
  rwa [Nat.add_sub_cancel' hcov.1] at hword

lemma redirectWeak_eq (hknown : p.Known a) : p.redirectWeak a = a := by
  by_cases hin : p.InSpace a
  · obtain ⟨w, rfl, hw⟩ := hknown hin
    rw [redirectWeak_addr hin hw]
    exact hs.redirect_eq hknown
  · rw [redirectWeak, if_neg hin]

end Still

end Plan

/-! ## Where everything can be reached -/

/-- If every object can be reached, all of them are live. -/
lemma Heap.live_eq_flatten {h : Heap MemoryImage}
    (hall : ∀ o ∈ objects.flatten, h.Reachable objects.flatten strong o) :
    h.live objects strong = objects.flatten := by
  simp only [live, List.filter_eq_self, decide_eq_true_eq]
  exact hall

namespace Heap.WellFormed

variable {h h₁ : Heap MemoryImage} (hw : h.WellFormed zones objects)
include hw

/-- If every object can be reached, every word below the tops is live. -/
lemma live_of_lt_top (hall : ∀ o ∈ objects.flatten, h.Reachable objects.flatten strong o)
    {maximum : Bool} (hz : z ∈ (h.plan zones objects strong limiter maximum).zones)
    (h1 : z.first * h.table.geometry.regionWords ≤ x) (h2 : x < z.top) :
    Live (h.plan zones objects strong limiter maximum).objs x := by
  obtain ⟨j, hj⟩ := List.mem_iff_getElem?.1 hz
  obtain ⟨z₀, _, hz₀, _, rfl⟩ := plan_zone_at hj
  obtain ⟨hlt, rfl⟩ := List.getElem?_eq_some_iff.1 hz₀
  have hlt' : j < objects.length := hw.tiled.length_eq ▸ hlt
  obtain ⟨o, ho, hcov⟩ := (hw.tiled.get hlt hlt').live h1 h2
  have hmem := List.mem_flatten_of_mem (List.getElem_mem hlt') ho
  exact live_of_mem (List.mem_append_right _ (mem_live.2 (hall o hmem))) hcov

variable (hpoints : ∀ a ∈ strong, h.Points objects.flatten a)
  (hall : ∀ o ∈ objects.flatten, h.Reachable objects.flatten strong o)
include hpoints hall

/-- A maximum compaction of a heap all of whose objects can be reached moves nothing. -/
theorem plan_still : (h.plan zones objects strong limiter true).Still :=
  (hw.plan_fits hpoints limiter true).still_of_full (fun _ hz => plan_keep_maximum hz) fun _ hz _ =>
    hw.live_of_lt_top hall hz

/-- It leaves the tops where they are. -/
lemma newTop_eq_top (hz : z ∈ (h.plan zones objects strong limiter true).zones) :
    z.newTop h.table.geometry.regionWords (h.plan zones objects strong limiter true).objs
      = z.top := by
  have hord := (hw.plan_fits hpoints limiter true).ordered z hz
  refine Zone.packed_of_full hord.keep_le_top fun w h1 h2 => hw.live_of_lt_top hall hz ?_ h2
  rwa [← plan_keep_maximum (h := h) hz]

/-- Words below the tops are what they were. -/
lemma word_of_still (hc : (h.plan zones objects strong limiter true).Compacted h₁)
    (hz : z ∈ (h.plan zones objects strong limiter true).zones)
    (h1 : z.first * h.table.geometry.regionWords ≤ w) (h2 : w < z.top) :
    h₁.image.word h.covered w = h.image.word h.covered w := by
  have hlive := hw.live_of_lt_top hall hz h1 h2
  refine ((hw.plan_still hpoints hall).word_eq hc (hw.plan_fits hpoints limiter true)
    (hw.plan_sound hpoints limiter true) hlive).trans ?_
  obtain ⟨o, ho, hcov⟩ := hlive
  rcases List.mem_append.1 ho with hfiller | ho
  · have hnone : o ∈ h.planned zones objects strong limiter true := hfiller
    rw [planned_maximum] at hnone
    exact absurd hnone List.not_mem_nil
  · exact hw.plan_memory hpoints ho hcov

end Heap.WellFormed

/-! ## After a maximum compaction -/

namespace Heap.WellFormed

variable {h h₁ : Heap MemoryImage} (hw : h.WellFormed zones objects)
  (hpoints : ∀ a ∈ strong, h.Points objects.flatten a)
include hw hpoints

/-- What fills the spaces after a maximum compaction are the places of the live objects. -/
lemma tile_maximum (hc : (h.plan zones objects strong limiter true).Compacted h₁)
    (ho : o ∈ (h.plan zones objects strong limiter true).settledObjects.flatten) :
    ∃ q ∈ h.live objects strong, (h.plan zones objects strong limiter true).place q = o := by
  have hp := hw.plan_fits hpoints limiter true
  have htile := hp.mem_settledObjects.1 ho
  obtain ⟨z, hz, h1, h2⟩ := hp.exists_zone_of_tile htile
  have hpos := hp.tile_pos htile
  have htop := (hp.ordered z hz).newTop_le (h.plan zones objects strong limiter true).objs
  rw [Span.past] at h2
  have hhas := (hp.ordered z hz).has_of_le h1 (by omega)
  rcases hw.tile_cases hpoints hc htile hz hhas with hplace | ⟨hfalse, _⟩
  · exact hplace
  · cases hfalse

/-- There are as many of them. -/
lemma length_maximum (hc : (h.plan zones objects strong limiter true).Compacted h₁) :
    (h.plan zones objects strong limiter true).settledObjects.flatten.length
      = (h.live objects strong).length := by
  have hp := hw.plan_selfContained hpoints limiter true
  have hsettled := hc.wellFormed hp
  have hmem : ∀ {q}, q ∈ h.live objects strong →
      q ∈ (h.plan zones objects strong limiter true).objs :=
    fun hq => List.mem_append_right _ hq
  have hnodup : ((h.live objects strong).map
      (h.plan zones objects strong limiter true).place).Nodup := by
    refine List.Nodup.map_on (fun q hq q' hq' heq => ?_) (hw.separate.nodup.filter _)
    have hpos := hp.fits.separate.words_pos q (hmem hq)
    have hcov := hp.fits.place_covers (hmem hq) (Span.covers_start hpos)
    have hcov' := hcov
    rw [heq] at hcov'
    exact hp.fits.eq_of_place (hmem hq) (hmem hq') hcov.1 hcov.2 hcov'.1 hcov'.2
  have hperm := (List.perm_ext_iff_of_nodup hsettled.separate.nodup hnodup).2 fun o => by
    rw [List.mem_map]
    constructor
    · exact hw.tile_maximum hpoints hc
    · rintro ⟨q, hq, rfl⟩
      exact hp.fits.mem_settledObjects.2 (Or.inl ⟨q, hmem hq, rfl⟩)
  rw [hperm.length_eq, List.length_map]

/-- All of them can be reached. -/
theorem reachable_maximum (hc : (h.plan zones objects strong limiter true).Compacted h₁)
    (ho : o ∈ (h.plan zones objects strong limiter true).settledObjects.flatten) :
    h₁.settled.Reachable (h.plan zones objects strong limiter true).settledObjects.flatten
      (strong.map (h.plan zones objects strong limiter true).redirect) o := by
  obtain ⟨q, hq, rfl⟩ := hw.tile_maximum hpoints hc ho
  exact hw.reachable_place hpoints hc (mem_live.1 hq)

end Heap.WellFormed

namespace Collector

variable {c : Collector MemoryImage} {roots : Roots} {requested : Bool} {h : Heap MemoryImage}

/-- What a cycle says about live words. -/
lemma outcome_liveWords (hlength : h.spaces.length = c.heap.spaces.length) :
    (c.outcome objects roots requested h).spaces.map SpaceSummary.liveWords
      = h.spaces.map Space.liveWords := by
  show ((h.settled.spaces.zip (c.heap.spaces.map Space.usedWords)).map _).map SpaceSummary.liveWords
    = _
  rw [List.map_map]
  have hfst : ((h.settled.spaces.zip (c.heap.spaces.map Space.usedWords)).map Prod.fst)
      = h.settled.spaces :=
    List.map_fst_zip (by rw [Heap.settled, List.length_map, List.length_map, hlength])
  calc
    _ = ((h.settled.spaces.zip (c.heap.spaces.map Space.usedWords)).map Prod.fst).map
          Space.liveWords := by
        rw [List.map_map]
        rfl
    _ = h.spaces.map Space.liveWords := by
        rw [hfst, Heap.settled, List.map_map]
        rfl

namespace Kept

variable (hk : c.Kept) (ho : c.Offers objects roots.strong)
include hk ho

/-- What a cycle leaves can be offered to the next one. -/
lemma offers_settled (hc : (c.plan objects roots.strong requested).Compacted h) :
    (c.settled requested h).Offers (c.plan objects roots.strong requested).settledObjects
      ((c.plan objects roots.strong requested).redirectRoots roots).strong where
  holds :=
    (hc.wellFormed ((hk.wellFormed ho).plan_selfContained ho.points c.limiter
      (c.nextMaximum requested))).holdsObjects
  points a ha := by
    have hw := hk.wellFormed ho
    obtain ⟨x, hx, rfl⟩ := List.mem_map.1 ha
    refine hc.settled_points (hw.plan_selfContained ho.points c.limiter (c.nextMaximum requested))
      fun hin => ?_
    obtain ⟨o, hlive, heq⟩ := Heap.WellFormed.live_of_root ho.points hx (hw.plan_inSpace_iff.1 hin)
    exact ⟨o, List.mem_append_right _ hlive, heq⟩
  tasks_lt := ho.tasks_lt

/-- After a maximum compaction there are as many live words as words in use. -/
lemma liveWords_maximum (hc : (c.plan objects roots.strong requested).Compacted h)
    (htallies : c.heap.Tallies h c.heap.zones (c.heap.live objects roots.strong))
    (hmaximum : c.nextMaximum requested = true) :
    (c.outcome objects roots requested h).spaces.map SpaceSummary.liveWords
      = (c.settled requested h).heap.spaces.map Space.usedWords := by
  have hw := hk.wellFormed ho
  have hlength : h.spaces.length = (c.plan objects roots.strong requested).zones.length :=
    hc.serves.spaces.length_eq
  rw [outcome_liveWords (by rw [hlength, hw.spaces_length]; exact hw.plan_zones_length)]
  show _ = (h.spaces.map Space.settled).map Space.usedWords
  refine List.ext_getElem (by rw [List.length_map, List.length_map, List.length_map])
    fun j h1 h2 => ?_
  rw [List.length_map] at h1
  have htop :=
    hk.newTop_maximum ho hc htallies hmaximum (List.getElem?_eq_getElem (hlength ▸ h1))
      (List.getElem?_eq_getElem h1)
  simp only [List.getElem_map, Space.settled, Space.usedWords, htop, bytesPerWord]
  omega

omit ho in
/-- The zone of a space in the plan of the next cycle. -/
lemma exists_plan_zone (objects : List (List Span)) (strong : List ℕ) (requested : Bool) {s : Space}
    (hs : c.heap.spaces[i]? = some s) : ∃ z, (c.plan objects strong requested).zones[i]? = some z
      ∧ s.bottom = c.heap.covered.addr (z.first * c.heap.table.geometry.regionWords)
      ∧ s.top = c.heap.covered.addr z.top := by
  obtain ⟨_, horderly⟩ := hk.orderly
  have hover := (horderly.over (List.mem_of_getElem? hs)).1
  have hlt : i < (c.plan objects strong requested).zones.length := by
    rw [plan_zones_length]
    exact (List.getElem?_eq_some_iff.1 hs).1
  have hz := List.getElem?_eq_getElem hlt
  obtain ⟨z₀, _, hz₀, _, heq⟩ := Heap.WellFormed.plan_zone_at hz
  rw [Heap.zones, List.getElem?_map, hs, Option.map_some, Option.some.injEq] at hz₀
  refine ⟨_, hz, ?_, ?_⟩
  · rw [show (c.plan objects strong requested).zones[i] = _ from heq, ← hz₀,
      ← horderly.consistent.geometry]
    exact hover.bottom
  · rw [show (c.plan objects strong requested).zones[i] = _ from heq, ← hz₀]
    exact hover.top

/-- A maximum compaction changes nothing if every object can be reached and weak roots refer to
words of objects. -/
theorem invoke_still (hall : ∀ o ∈ objects.flatten, c.heap.Reachable objects.flatten roots.strong o)
    (hweak : ∀ a ∈ roots.weak, c.heap.isInSpace a = true → ∃ w, a = c.heap.covered.addr w
      ∧ Live objects.flatten w) :
    ∃ summary c', c.invoke roots true = .ok (summary, roots, c')
      ∧ (∀ s ∈ c.heap.spaces, ∀ w, s.bottom ≤ c.heap.covered.addr w →
        c.heap.covered.addr w < s.top →
        c'.heap.image.word c.heap.covered w = c.heap.image.word c.heap.covered w)
      ∧ c'.heap.spaces.map Space.top = c.heap.spaces.map Space.top
      ∧ summary.totals.wordsCopied = 0 ∧ summary.weakCleared = 0
      ∧ summary.liveObjects = objects.flatten.length
      ∧ summary.spaces.map SpaceSummary.liveWords = c.heap.spaces.map Space.usedWords := by
  have hw := hk.wellFormed ho
  obtain ⟨h, hc, htallies, heq⟩ := hk.invoke_eq ho true
  have hstill : (c.plan objects roots.strong true).Still := hw.plan_still ho.points hall
  have hlive : c.heap.live objects roots.strong = objects.flatten := Heap.live_eq_flatten hall
  have hknown : ∀ a ∈ roots.weak, (c.plan objects roots.strong true).Known a := fun a ha hin => by
    obtain ⟨w, rfl, o, hmem, hcov⟩ := hweak a ha (hw.plan_inSpace_iff.1 hin)
    exact ⟨w, rfl, live_of_mem (List.mem_append_right _ (Heap.mem_live.2 (hall o hmem))) hcov⟩
  have hroots : (c.plan objects roots.strong true).redirectRoots roots = roots := by
    rw [Plan.redirectRoots,
      List.map_congr_left fun a ha => hstill.redirect_eq (hw.plan_known ho.points ha),
      List.map_congr_left fun a ha => hstill.redirectWeak_eq (hknown a ha), List.map_id',
      List.map_id']
  have hlength : h.spaces.length = c.heap.spaces.length := by
    rw [hc.serves.spaces.length_eq, hw.spaces_length]
    exact hw.plan_zones_length
  -- The spaces stay as they are.
  have hspace : ∀ j (h1 : j < h.spaces.length) (h2 : j < c.heap.spaces.length),
      h.spaces[j].newTop = c.heap.spaces[j].top ∧ h.spaces[j].bottom = c.heap.spaces[j].bottom :=
        fun j h1 h2 => by
    obtain ⟨z, hz, hbottom, htop⟩ :=
      hk.exists_plan_zone objects roots.strong true (List.getElem?_eq_getElem h2)
    obtain ⟨h3, rfl⟩ := List.getElem?_eq_some_iff.1 hz
    have hmatches := hc.serves.spaces.get h1 h3
    simp only [List.get_eq_getElem] at hmatches
    have hnewTop : h.spaces[j].newTop
        = c.heap.covered.addr ((c.plan objects roots.strong true).zones[j].newTop
      c.heap.table.geometry.regionWords (c.plan objects roots.strong true).objs) := hmatches.newTop
    have hstays := hw.newTop_eq_top ho.points hall (List.getElem_mem h3)
    exact ⟨hnewTop.trans ((congrArg _ hstays).trans htop.symm), hmatches.bottom.trans hbottom.symm⟩
  rw [hroots] at heq
  refine ⟨_, _, heq, fun s hs w h1 h2 => ?_, ?_, hstill.wordsCopied_eq, ?_, ?_, ?_⟩
  · obtain ⟨j, hj⟩ := List.mem_iff_getElem?.1 hs
    obtain ⟨z, hz, hbottom, htop⟩ := hk.exists_plan_zone objects roots.strong true hj
    rw [hbottom, Extent.addr_le_addr] at h1
    rw [htop, Extent.addr_lt_addr] at h2
    have hword : h.image.word c.heap.covered w = c.heap.image.word c.heap.covered w :=
      hw.word_of_still ho.points hall hc (List.mem_of_getElem? hz) h1 h2
    exact hword
  · show (h.spaces.map Space.settled).map Space.top = _
    refine List.ext_getElem (by rw [List.length_map, List.length_map, List.length_map, hlength])
      fun j h1 h2 => ?_
    rw [List.length_map] at h2
    rw [List.getElem_map, List.getElem_map, List.getElem_map]
    exact (hspace j (hlength ▸ h2) h2).1
  · refine List.countP_eq_zero.2 fun a ha => ?_
    rw [decide_eq_true_eq]
    rintro ⟨hin, hdead⟩
    obtain ⟨w, rfl, hlive⟩ := hknown a ha hin
    rw [Plan.wordOf_addr] at hdead
    exact hdead hlive
  · exact congrArg List.length hlive
  · rw [hk.liveWords_maximum ho hc htallies rfl]
    show (h.spaces.map Space.settled).map Space.usedWords = _
    refine List.ext_getElem (by rw [List.length_map, List.length_map, List.length_map, hlength])
      fun j h1 h2 => ?_
    rw [List.length_map] at h2
    obtain ⟨htop, hbottom⟩ := hspace j (hlength ▸ h2) h2
    simp only [List.getElem_map, Space.settled, Space.usedWords, htop, hbottom]

/-- After a maximum compaction a weak root that referred to a word refers to a word of an object, if
it refers into a space. -/
lemma weak_maximum (hc : (c.plan objects roots.strong true).Compacted h)
    (haligned : ∀ a ∈ roots.weak, c.heap.isInSpace a = true → bytesPerWord ∣ a)
    (ha : a ∈ ((c.plan objects roots.strong true).redirectRoots roots).weak)
    (hin : h.settled.isInSpace a = true) :
    ∃ w, a = h.settled.covered.addr w ∧ Live
      (c.plan objects roots.strong true).settledObjects.flatten w := by
  have hw := hk.wellFormed ho
  have hp : (c.plan objects roots.strong true).SelfContained :=
    hw.plan_selfContained ho.points c.limiter true
  have hcovered : h.settled.covered = (c.plan objects roots.strong true).covered :=
    hc.serves.covered
  rw [hc.settled_isInSpace_iff hp] at hin
  obtain ⟨x, hx, rfl⟩ := List.mem_map.1 ha
  rw [hcovered]
  by_cases hspace : (c.plan objects roots.strong true).InSpace x
  · by_cases hlive :
      Live (c.plan objects roots.strong true).objs ((c.plan objects roots.strong true).wordOf x)
    · obtain ⟨o, ho, hcov⟩ := hlive
      have hword :=
        hspace.eq_addr hp.fits.toValid hk.aligned (haligned x hx (hw.plan_inSpace_iff.1 hspace))
      rw [hword] at hspace ⊢
      rw [Plan.redirectWeak_addr hspace (live_of_mem ho hcov), Plan.redirect_addr hspace]
      exact ⟨_, rfl, live_of_mem (hp.fits.mem_settledObjects.2 (Or.inl ⟨o, ho, rfl⟩))
        (hp.fits.place_covers ho hcov)⟩
    · rw [Plan.redirectWeak, if_pos hspace, if_neg hlive] at hin
      exact absurd rfl (hin.ne_zero (lt_of_lt_of_le (by decide) hp.fits.base_le))
  · rw [Plan.redirectWeak, if_neg hspace] at hin
    exact absurd hin hspace

end Kept

/-- A second maximum compaction changes nothing: no word below the tops, no root and no top, and it
copies no word, clears no weak root and says the same of what is live. -/
theorem maximum_idempotent (hr : Reached c) (ho : c.Offers objects roots.strong)
    (haligned : ∀ a ∈ roots.weak, c.heap.isInSpace a = true → bytesPerWord ∣ a) :
    ∃ summary₁ roots₁ c₁ summary₂ c₂, c.invoke roots true = .ok (summary₁, roots₁, c₁)
      ∧ c₁.invoke roots₁ true = .ok (summary₂, roots₁, c₂)
      ∧ (∀ s ∈ c₁.heap.spaces, ∀ w, s.bottom ≤ c₁.heap.covered.addr w →
        c₁.heap.covered.addr w < s.top →
        c₂.heap.image.word c₁.heap.covered w = c₁.heap.image.word c₁.heap.covered w)
      ∧ c₂.heap.spaces.map Space.top = c₁.heap.spaces.map Space.top
      ∧ summary₂.totals.wordsCopied = 0 ∧ summary₂.weakCleared = 0
      ∧ summary₂.liveObjects = summary₁.liveObjects
      ∧ summary₂.spaces.map SpaceSummary.liveWords
        = summary₁.spaces.map SpaceSummary.liveWords := by
  have hk := hr.kept
  have hw := hk.wellFormed ho
  obtain ⟨h, hc, htallies, heq⟩ := hk.invoke_eq ho true
  have hp : (c.plan objects roots.strong true).FitsMemory := hw.plan_fits ho.points c.limiter true
  have hk₁ : (c.settled true h).Kept := hk.settled hp hc
  obtain ⟨summary, c₂, hrun, hwords, htops, hcopied, hcleared, hobjects, hlive⟩ :=
    hk₁.invoke_still (hk.offers_settled ho hc)
    (fun o hin => hw.reachable_maximum ho.points hc hin)
      (fun a ha hin => hk.weak_maximum ho hc haligned ha hin)
  refine ⟨_, _, _, summary, c₂, heq, hrun, hwords, htops, hcopied, hcleared, ?_, ?_⟩
  · exact hobjects.trans (hw.length_maximum ho.points hc)
  · exact hlive.trans (hk.liveWords_maximum ho hc htallies rfl).symm

/-- The two linked objects are compacted twice. -/
theorem maximum_idempotent_linked :
    (∀ a ∈ (⟨[64], [88]⟩ : Roots).weak, linked.heap.isInSpace a = true → bytesPerWord ∣ a) ∧
    ∃ summary₁ roots₁ c₁ summary₂ c₂, linked.invoke ⟨[64], [88]⟩ true = .ok (summary₁, roots₁, c₁)
      ∧ c₁.invoke roots₁ true = .ok (summary₂, roots₁, c₂)
      ∧ (∀ s ∈ c₁.heap.spaces, ∀ w, s.bottom ≤ c₁.heap.covered.addr w →
        c₁.heap.covered.addr w < s.top →
        c₂.heap.image.word c₁.heap.covered w = c₁.heap.image.word c₁.heap.covered w)
      ∧ c₂.heap.spaces.map Space.top = c₁.heap.spaces.map Space.top
      ∧ summary₂.totals.wordsCopied = 0 ∧ summary₂.weakCleared = 0
      ∧ summary₂.liveObjects = summary₁.liveObjects
      ∧ summary₂.spaces.map SpaceSummary.liveWords = summary₁.spaces.map SpaceSummary.liveWords :=
  have haligned : ∀ a ∈ (⟨[64], [88]⟩ : Roots).weak, linked.heap.isInSpace a = true →
      bytesPerWord ∣ a := by
    simp [bytesPerWord]
  ⟨haligned, maximum_idempotent linked_reached linked_offers haligned⟩

end Collector

end MarkCompact
