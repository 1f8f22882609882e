import MarkCompact.Proofs.Fills
import MarkCompact.Proofs.Recordings

/-!
# What a fill reads and writes

Filling region `D` copies words, each from where it was to its place, and redirects the references
of objects that are complete then.  `p.Watches g₀ h₀ D g h` is what holds of the recording `h` of
such a fill, which began with the heap `h₀` and has come from `g₀` to `g`: which words differ, which
words have been copied, and in which order.

Main statement: `fillRegion_reads` (what a whole fill has read and written).
-/

namespace MarkCompact

variable {p : Plan} {g g₀ : Progress} {h₀ : Heap MemoryImage} {h h' : Heap (Recording MemoryImage)}
  {o : Span} {c c' : Copy} {D d n s w x : ℕ}

namespace Copy

/-- Word `w` was copied to word `x`. -/
def Moves (e : Extent) (c : Copy) (w x : ℕ) : Prop :=
  ∃ i < c.words, e.addr w = c.source + bytesPerWord * i
    ∧ e.addr x = c.destination + bytesPerWord * i

/-- All that the first one reads and writes lies in front of what the second one reads and
writes. -/
structure Before (c c' : Copy) : Prop where
  source : c.source + bytesPerWord * c.words ≤ c'.source
  destination : c.destination + bytesPerWord * c.words ≤ c'.destination

lemma moves_iff {e : Extent} :
    Moves e ⟨e.addr s, e.addr d, n⟩ w x ↔ ∃ i < n, w = s + i ∧ x = d + i := by
  refine exists_congr fun i => and_congr_right fun _ => ?_
  dsimp only
  rw [Extent.addr_add, Extent.addr_add, Extent.addr_inj, Extent.addr_inj]

end Copy

namespace Recording

variable {μ : Type}

/-- Word `w` has been copied to word `x`. -/
def Moves (e : Extent) (r : Recording μ) (w x : ℕ) : Prop :=
  ∃ c ∈ r.copies, c.Moves e w x

/-- Words have been read, and written, in ascending order. -/
def InOrder (r : Recording μ) : Prop :=
  r.copies.Pairwise fun c' c => c.Before c'

end Recording

namespace Plan

/-- Of two words that go to the same region, the one that goes to the lower place is the lower
one. -/
lemma Valid.lt_of_forward_lt (hp : p.Valid) {w w' : ℕ} (hw : Live p.objs w) (hw' : Live p.objs w')
    (hregion : p.forward w / p.regionWords = p.forward w' / p.regionWords)
    (hlt : p.forward w < p.forward w') : w < w' := by
  have hW := p.regionWords_pos
  obtain ⟨z, hz, hhas, _⟩ := hp.exists_zone hw
  obtain ⟨z', hz', hhas', _⟩ := hp.exists_zone hw'
  have hplace := hp.has_forward hz hhas
  have hplace' := hp.has_forward hz' hhas'
  have hsame : z = z' := by
    refine hp.eq_of_region (r := p.forward w / p.regionWords) hz hz'
      ((Nat.le_div_iff_mul_le hW).2 hplace.1)
      (div_lt_of_lt_mul hplace.2) ?_ ?_
    · rw [hregion]
      exact (Nat.le_div_iff_mul_le hW).2 hplace'.1
    · rw [hregion]
      exact div_lt_of_lt_mul hplace'.2
  subst hsame
  by_contra hge
  rcases Nat.lt_or_eq_of_le (not_lt.1 hge) with hlt' | rfl
  · have hmono := z.forward_lt (W := p.regionWords) hw' hlt'
    rw [← hp.forward_eq hz hhas', ← hp.forward_eq hz hhas] at hmono
    omega
  · exact absurd hlt (lt_irrefl _)

/-- What holds of the recording `h` of a fill of region `D` that has come from `g₀`, with the heap
`h₀`, to `g`. -/
structure Watches (p : Plan) (g₀ : Progress) (h₀ : Heap MemoryImage) (D : ℕ) (g : Progress)
    (h : Heap (Recording MemoryImage)) : Prop where
  grows : ∀ x, g₀.filled x → g.filled x
  keeps : ∀ o ∈ g₀.updated, o ∈ g.updated
  /-- A word that differs has been filled with another one, or it belongs to an object that has been
  updated. -/
  differs : ∀ x, h.image.image.word p.covered x ≠ h₀.image.word p.covered x →
    ∃ w, Live p.objs w ∧ p.forward w = x
    ∧ (g.filled x ∧ ¬g₀.filled x ∨ ∃ o ∈ g.updated, o ∉ g₀.updated ∧ o.Covers w)
  made : ∀ c ∈ h.image.copies, ∃ s d n, 0 < n ∧ c = ⟨p.covered.addr s, p.covered.addr d, n⟩
  moves_iff : ∀ w x, h.image.Moves p.covered w x ↔ Live p.objs w ∧ p.forward w = x ∧ w ≠ x
    ∧ g.filled x ∧ ¬g₀.filled x
  inOrder : (∀ w, Live p.objs w → g.filled (p.forward w) → ¬g₀.filled (p.forward w) →
    p.forward w / p.regionWords = D) →
    h.image.InOrder

namespace Watches

/-- Nothing has been read or written before a fill. -/
lemma start (p : Plan) (g₀ : Progress) (h₀ : Heap MemoryImage) (D : ℕ) :
    p.Watches g₀ h₀ D g₀ h₀.recording where
  grows _ := id
  keeps _ := id
  differs _ hne := absurd rfl hne
  made _ hmem := absurd hmem List.not_mem_nil
  moves_iff _ _ := iff_of_false (fun ⟨_, hmem, _⟩ => absurd hmem List.not_mem_nil) fun h =>
    h.2.2.2.2 h.2.2.2.1
  inOrder _ := .nil

/-- Nothing is read or written when more words count as filled to which no live word goes. -/
lemma widen {filled : ℕ → Prop} (hw : p.Watches g₀ h₀ D g h) (hmore : ∀ x, g.filled x → filled x)
    (hplaceless : ∀ x, filled x → ¬g.filled x → ∀ w, Live p.objs w → p.forward w ≠ x) :
    p.Watches g₀ h₀ D { g with filled } h where
  grows x hx := hmore x (hw.grows x hx)
  keeps := hw.keeps
  differs x hne := by
    obtain ⟨w, hlive, heq, hwhy⟩ := hw.differs x hne
    exact ⟨w, hlive, heq, hwhy.imp_left fun h => ⟨hmore x h.1, h.2⟩⟩
  made := hw.made
  moves_iff w x := by
    rw [hw.moves_iff]
    refine and_congr_right fun hlive => and_congr_right fun heq => and_congr_right fun _ =>
      and_congr_left fun _ => ?_
    exact ⟨hmore x, fun hx => by_contra fun hnot => hplaceless x hx hnot w hlive heq⟩
  inOrder hregion := hw.inOrder fun w hlive hfilled hnot => hregion w hlive (hmore _ hfilled) hnot

section

variable {filled : ℕ → Prop} (hw : p.Watches g₀ h₀ D g h) (hp : p.Valid)
  (hlive : ∀ i, i < n → Live p.objs (s + i)) (hforward : ∀ i, i < n → p.forward (s + i) = d + i)
  (hfilled : ∀ x, filled x ↔ g.filled x ∨ (d ≤ x ∧ x < d + n))
include hw hp hlive hforward hfilled

/-- Words that stay where they are count as filled. -/
lemma stay (hsame : s = d) : p.Watches g₀ h₀ D { g with filled } h where
  grows x hx := (hfilled x).2 (Or.inl (hw.grows x hx))
  keeps := hw.keeps
  differs x hne := by
    obtain ⟨w, hlive, heq, hwhy⟩ := hw.differs x hne
    exact ⟨w, hlive, heq, hwhy.imp_left fun h => ⟨(hfilled x).2 (Or.inl h.1), h.2⟩⟩
  made := hw.made
  moves_iff w x := by
    rw [hw.moves_iff]
    refine and_congr_right fun hw => and_congr_right fun heq => and_congr_right fun hne =>
      and_congr_left fun _ => ?_
    refine ((hfilled x).trans (or_iff_left fun hx => hne ?_)).symm
    -- Only one word goes to the place, and that is there already.
    have hplace := hforward (x - d) (by omega)
    have hword := hp.forward_injective hw (hlive (x - d) (by omega)) (by omega)
    omega
  inOrder hregion :=
    hw.inOrder fun w hlive hx hnot => hregion w hlive ((hfilled _).2 (Or.inl hx)) hnot

/-- Words are copied to a place behind which their region is empty. -/
lemma copy (hpos : 0 < n) (hplaces : ∀ i, i < n → (d + i) / p.regionWords = d / p.regionWords)
    (hempty : ∀ x, d ≤ x → x / p.regionWords = d / p.regionWords → ¬g.filled x) (hne : s ≠ d)
    (hbacks : h.image.image.Backs p.covered) (hlast : s + n ≤ p.covered.words)
    (himage : h'.image = ⟨h.image.image.copyWords (p.covered.addr s) (p.covered.addr d) n,
      ⟨p.covered.addr s, p.covered.addr d, n⟩ :: h.image.copies⟩) :
    p.Watches g₀ h₀ D { g with filled } h' := by
  have hle : d ≤ s := by
    have := hp.forward_le (hlive 0 hpos)
    rw [hforward 0 hpos] at this
    omega
  have hnew : ∀ x, d ≤ x → x < d + n → ¬g.filled x := fun x h1 h2 => by
    have hplace := hplaces (x - d) (by omega)
    rw [Nat.add_sub_cancel' h1] at hplace
    exact hempty x h1 hplace
  have hwords := MemoryImage.word_copyWords hbacks hlast (show d + n ≤ p.covered.words by omega)
  constructor
  case grows => exact fun x hx => (hfilled x).2 (Or.inl (hw.grows x hx))
  case keeps => exact hw.keeps
  case differs =>
    intro x hdiffers
    rw [himage, hwords] at hdiffers
    split at hdiffers
    case isTrue hin =>
      refine ⟨s + (x - d), hlive _ (by omega), by rw [hforward _ (by omega)]; omega,
        Or.inl ⟨(hfilled x).2 (Or.inr hin), ?_⟩⟩
      exact fun hold => hnew x hin.1 hin.2 (hw.grows x hold)
    case isFalse =>
      obtain ⟨w, hlive, heq, hwhy⟩ := hw.differs x hdiffers
      exact ⟨w, hlive, heq, hwhy.imp_left fun h => ⟨(hfilled x).2 (Or.inl h.1), h.2⟩⟩
  case moves_iff =>
    intro w x
    have hmoves : h'.image.Moves p.covered w x ↔ (∃ i < n, w = s + i ∧ x = d + i)
        ∨ h.image.Moves p.covered w x := by
      rw [Recording.Moves, himage, Recording.Moves, ← Copy.moves_iff (e := p.covered)]
      exact List.exists_mem_cons_iff ..
    rw [hmoves, hw.moves_iff]
    dsimp only
    rw [hfilled]
    constructor
    · rintro (⟨i, hi, rfl, rfl⟩ | ⟨hlive, heq, hne, hx, hnot⟩)
      · exact ⟨hlive i hi, hforward i hi, by omega, Or.inr ⟨by omega, by omega⟩, fun hold =>
          hnew _ (Nat.le_add_right d i) (by omega) (hw.grows _ hold)⟩
      · exact ⟨hlive, heq, hne, Or.inl hx, hnot⟩
    · rintro ⟨hw, heq, hne, hx | hin, hnot⟩
      · exact Or.inr ⟨hw, heq, hne, hx, hnot⟩
      · have hplace := hforward (x - d) (by omega)
        have hword := hp.forward_injective hw (hlive (x - d) (by omega)) (by omega)
        exact Or.inl ⟨x - d, by omega, hword, by omega⟩
  case made =>
    rw [himage]
    exact List.forall_mem_cons.2 ⟨⟨s, d, n, hpos, rfl⟩, hw.made⟩
  case inOrder =>
    intro hregion
    rw [Recording.InOrder, himage]
    refine List.pairwise_cons.2 ⟨fun c hc => ?_, hw.inOrder fun w hlive hx hnot =>
      hregion w hlive ((hfilled _).2 (Or.inl hx)) hnot⟩
    obtain ⟨s', d', n', hpos', rfl⟩ := hw.made c hc
    -- The last word of the earlier copy went to the same region, so in front of what is empty now.
    obtain ⟨hlive', heq', _, hx, hnot⟩ := (hw.moves_iff (s' + (n' - 1)) (d' + (n' - 1))).1
      ⟨_, hc, Copy.moves_iff.2 ⟨n' - 1, by omega, rfl, rfl⟩⟩
    have hfirst := hforward 0 hpos
    rw [Nat.add_zero, Nat.add_zero] at hfirst
    have hD : d / p.regionWords = D := by
      have :=
        hregion s (hlive 0 hpos) (by rw [hfirst]; exact (hfilled d).2 (Or.inr ⟨le_rfl, by omega⟩))
        (by rw [hfirst]; exact fun hold => hnew d le_rfl (by omega) (hw.grows d hold))
      rwa [hfirst] at this
    have hD' : p.forward (s' + (n' - 1)) / p.regionWords = D :=
      hregion _ hlive' (by rw [heq']; exact (hfilled _).2 (Or.inl hx)) (by rwa [heq'])
    have hlt : d' + (n' - 1) < d := by
      by_contra hge
      exact hempty _ (not_lt.1 hge) (by rw [hD, ← hD', heq']) hx
    have hsource : s' + (n' - 1) < s :=
      hp.lt_of_forward_lt hlive' (hlive 0 hpos) (by rw [hD', hfirst, hD])
      (by omega)
    constructor
    · show p.covered.addr s' + bytesPerWord * n' ≤ p.covered.addr s
      rw [Extent.addr_add, Extent.addr_le_addr]
      omega
    · show p.covered.addr d' + bytesPerWord * n' ≤ p.covered.addr d
      rw [Extent.addr_add, Extent.addr_le_addr]
      omega

end

/-- An object is updated. -/
lemma update (hw : p.Watches g₀ h₀ D g h) (hp : p.Valid) (ho : o ∈ p.objs) (hnot : o ∉ g.updated)
    (hcopies : h'.image.copies = h.image.copies)
    (hkept : ∀ x, ¬(p.forward o.start ≤ x ∧ x < p.forward o.start + o.words) →
      h'.image.image.word p.covered x = h.image.image.word p.covered x) :
    p.Watches g₀ h₀ D { g with updated := o :: g.updated } h' where
  grows := hw.grows
  keeps o' ho' := List.mem_cons_of_mem _ (hw.keeps o' ho')
  differs x hdiffers := by
    by_cases hin : p.forward o.start ≤ x ∧ x < p.forward o.start + o.words
    · have hk : x - p.forward o.start < o.words := by omega
      refine ⟨o.start + (x - p.forward o.start), live_of_mem ho (Span.covers_add hk), ?_,
        Or.inr ⟨o, List.mem_cons_self, fun h => hnot (hw.keeps o h), Span.covers_add hk⟩⟩
      rw [hp.forward_add ho hk]
      omega
    · rw [hkept x hin] at hdiffers
      obtain ⟨w, hlive, heq, hwhy⟩ := hw.differs x hdiffers
      refine ⟨w, hlive, heq, hwhy.imp_right ?_⟩
      rintro ⟨o', ho', hnot', hcov⟩
      exact ⟨o', List.mem_cons_of_mem _ ho', hnot', hcov⟩
  made := by
    rw [hcopies]
    exact hw.made
  moves_iff w x := by
    rw [Recording.Moves, hcopies]
    exact hw.moves_iff w x
  inOrder hregion := by
    rw [Recording.InOrder, hcopies]
    exact hw.inOrder hregion

/-- Nothing is read or written when starts are recorded, and whatever is reported. -/
lemma of_image {noted : ℕ → Prop} (hw : p.Watches g₀ h₀ D g h) (himage : h'.image = h.image) :
    p.Watches g₀ h₀ D { g with noted } h' where
  grows := hw.grows
  keeps := hw.keeps
  differs := by
    rw [himage]
    exact hw.differs
  made := by
    rw [himage]
    exact hw.made
  moves_iff := by
    rw [himage]
    exact hw.moves_iff
  inOrder := by
    rw [himage]
    exact hw.inOrder

end Watches

/-- What has been copied does not matter for the tables. -/
lemma serves_played {μ : Type} {h : Heap (Recording μ)} : p.Serves h.played ↔ p.Serves h :=
  ⟨fun hs => ⟨{ hs.consistent with }, hs.loaded, hs.spaces⟩,
    fun hs => ⟨{ hs.consistent with }, hs.loaded, hs.spaces⟩⟩

/-- Copying keeps track of what has been read and written. -/
lemma Watches.copyWords_leads {f : Filling} {filled : ℕ → Prop} (hw : p.Watches g₀ h₀ D g h)
    (hp : p.Valid) (hbacks : h.image.image.Backs p.covered) (hlast : s + n ≤ p.covered.words)
    (hsource : f.source = p.covered.addr s) (hdestination : f.destination = p.covered.addr d)
    (hpos : 0 < n) (hlive : ∀ i, i < n → Live p.objs (s + i))
    (hforward : ∀ i, i < n → p.forward (s + i) = d + i)
    (hplaces : ∀ i, i < n → (d + i) / p.regionWords = d / p.regionWords)
    (hempty : ∀ x, d ≤ x → x / p.regionWords = d / p.regionWords → ¬g.filled x)
    (hfilled : ∀ x, filled x ↔ g.filled x ∨ (d ≤ x ∧ x < d + n)) :
    Heap.Leads (fun _ => True) (Heap.copyWords n f) h fun _ h' =>
      p.Watches g₀ h₀ D { g with filled } h' := by
  unfold Heap.copyWords
  rw [hsource, hdestination]
  split
  case isTrue hsame =>
    exact Heap.leads_pure.2 (hw.stay hp hlive hforward hfilled (Extent.addr_inj.1 hsame))
  case isFalse hne =>
    rw [Extent.addr_inj] at hne
    rw [Heap.leads_bind, Heap.onImage, Heap.leads_bind, Heap.leads_get, Heap.leads_bind]
    refine Heap.leads_check.2 ⟨fun image himage => ?_, fun _ _ => trivial⟩
    cases himage
    exact hw.copy hp hlive hforward hfilled hpos hplaces hempty hne hbacks hlast rfl

/-- Filling region `D` from the heap `h₀` on: what holds of memory, and what has been read and
written. -/
def readingUpkeep (hp : p.FitsMemory) (hsound : p.Sound) (g₀ : Progress)
    (h₀ : Heap MemoryImage) (D : ℕ) :
    Upkeep (Recording MemoryImage) p where
  may _ := False
  Holds g h := p.Underway g h.played ∧ p.Watches g₀ h₀ D g h
  serves hh := serves_played.1 hh.1.serves
  withTable hh hserves := ⟨{ hh.1 with serves := serves_played.2 hserves }, { hh.2 with }⟩
  withLog {_ _ log} hh := ⟨{ hh.1 with serves := hh.1.serves.withLog log }, { hh.2 with }⟩
  widen hh hmore hplaceless hgone :=
    ⟨{ hh.1 with moved := hh.1.moved.widen hmore hplaceless hgone }, hh.2.widen hmore hplaceless⟩
  copyWords {g h f s d n filled} hh hsource hdestination hpos hlive hforward hregion hempty hsafe
    hfilled := by
    have hlast : s + n ≤ p.covered.words := by
      have := hh.1.serves.consistent.marks.live_lt (hlive (n - 1) (by omega))
      rw [hh.1.serves.bitmap_covered] at this
      omega
    have hmemory :=
      (Heap.copyWords_shadows n f).leads ((p.memoryUpkeep hp hsound).copyWords hh.1 hsource
        hdestination hpos
      hlive hforward hregion hempty hsafe hfilled)
    have hwatch :=
      hh.2.copyWords_leads hp.toValid hh.1.backs hlast hsource hdestination hpos hlive
        hforward hregion
      hempty hfilled
    refine (hmemory.and hwatch).mono fun f' h' => ?_
    rintro ⟨⟨hu, htable, hf⟩, hw⟩
    exact ⟨⟨hu, hw⟩, htable, hf⟩
  recordStart {g h i x z} hh hz hhas hstart := by
    have hmemory := (Heap.onSpace_shadows i (·.recordStart (p.covered.addr x))).leads
      ((p.memoryUpkeep hp hsound).recordStart hh.1 hz hhas hstart)
    have hwatch : Heap.Leads
        (fun _ => True) (Heap.onSpace i (·.recordStart (p.covered.addr x))) h fun _ h' =>
        h'.image = h.image := by
      rw [Heap.onSpace, Heap.leads_bind, Heap.leads_get, Heap.leads_bind]
      refine Heap.leads_check.2 ⟨fun s _ => Heap.leads_bind.2 ?_, fun _ _ => trivial⟩
      exact Heap.leads_check.2 ⟨fun s' _ => Heap.leads_set.2 rfl, fun _ _ => trivial⟩
    refine (hmemory.and hwatch).mono fun _ h' => ?_
    rintro ⟨⟨hu, htable⟩, himage⟩
    exact ⟨⟨hu, hh.2.of_image himage⟩, htable⟩
  updateObject {g h o} hh ho hnot harrived := by
    have hmemory := (Heap.updateContents_shadows (p.covered.addr (p.forward o.start))).leads
      ((Heap.updateObject_runs hh.1 hp hsound ho hnot harrived).leads : Heap.Leads
        (fun _ => False) _ _ _)
    refine (hmemory.and (Heap.updateContents_quiet _ h)).mono fun _ h' => ?_
    rintro ⟨⟨hu, hrefilled, hkept⟩, hcopies⟩
    exact ⟨⟨hu, hh.2.update hp.toValid ho hnot hcopies hkept⟩, hrefilled⟩

/-! ## A whole fill -/

/-- What has been read and written when region `D` of zone `z` has been filled, from the heap `h₀`
on, at which the regions in `done` were completed. -/
structure Reads (p : Plan) (done : ℕ → Prop) (z : Zone) (D : ℕ) (h₀ : Heap MemoryImage)
    (h : Heap (Recording MemoryImage)) : Prop where
  kept : ∀ x, ¬(D * p.regionWords ≤ x ∧ x < z.fillEnd p.regionWords p.objs D) →
    h.image.image.word p.covered x = h₀.image.word p.covered x
  /-- A word arrives as it was, unless the references of its object have been redirected. -/
  word_eq : ∀ o ∈ p.objs, ∀ w, o.Covers w → D * p.regionWords ≤ p.forward w →
    p.forward w < z.fillEnd p.regionWords p.objs D →
    h.image.image.word p.covered (p.forward w) = open Classical in
      if (done (p.forward o.start / p.regionWords)
        ∨ p.forward o.start / p.regionWords = D) ∧ ¬p.Split o
      then p.redirectWord (p.shape o) (w - o.start) (p.memory w) else p.memory w
  moves_iff : ∀ w x, h.image.Moves p.covered w x ↔ Live p.objs w ∧ p.forward w = x ∧ w ≠ x
    ∧ D * p.regionWords ≤ x ∧ x < z.fillEnd p.regionWords p.objs D
  inOrder : h.image.InOrder

end Plan

open Plan

variable {done : ℕ → Prop} {i : ℕ} {z : Zone}

/-- A fill is recorded from where the heap rests. -/
lemma Upkeep.Rests.recording {hp : p.FitsMemory} {hsound : p.Sound}
    (hrests : (p.memoryUpkeep hp hsound).Rests done h₀) (D : ℕ) :
    ∃ g₀, (p.memoryUpkeep hp hsound).Reaches (p.Settled done)
        (fun o => o ∈ p.objs ∧ done (p.forward o.start / p.regionWords) ∧ ¬p.Split o)
          (fun y => done (y / p.regionWords)) g₀ h₀
      ∧ (p.readingUpkeep hp hsound g₀ h₀ D).Rests done h₀.recording := by
  obtain ⟨⟨g₀, hg⟩, hcounted, hkeeps⟩ := hrests
  refine ⟨g₀, hg, ⟨g₀, { hg with holds := ⟨?_, .start p g₀ h₀ D⟩ }⟩, hcounted, hkeeps⟩
  rw [Heap.played_recording]
  exact hg.holds

/-- What a fill has read and written. -/
theorem Heap.fillRegion_reads (hp : p.FitsMemory) (hsound : p.Sound) (ht : p.Target done i z D)
    (hrests : (p.memoryUpkeep hp hsound).Rests done h₀) :
    Runs (fillRegion D) h₀.recording fun out h' => fillRegion D h₀ = .ok (out, h'.played)
      ∧ (p.memoryUpkeep hp hsound).Rests (fun r => done r ∨ r = D) h'.played
      ∧ p.Reads done z D h₀ h' := by
  obtain ⟨g₀, hg₀, hrecorded⟩ := hrests.recording D
  have hrun := (fillRegion_leads hp.toValid ht hrecorded).runs fun _ => id
  obtain ⟨out, h', heq, hfilled⟩ := hrun
  obtain ⟨⟨g, hg⟩, hcounted, hkeeps⟩ := hfilled.rests
  obtain ⟨hu, hw⟩ := hg.holds
  have hplayed := fillRegion_shadows D h₀.recording
  rw [played_recording, heq] at hplayed
  refine ⟨out, h', heq, hplayed, ⟨⟨g, { hg with holds := hu }⟩, hcounted, hkeeps⟩, ?_⟩
  have hvalid := hp.toValid
  -- The words that the fill has filled are those of the region.
  have hfills : ∀ x, g.filled x ∧ ¬g₀.filled x
      ↔ D * p.regionWords ≤ x ∧ x < D * p.regionWords + p.regionWords := fun x => by
    rw [hg.filled_iff, hg₀.filled_iff, settled_insert]
    exact ⟨fun h => h.1.resolve_left h.2, fun h => ⟨Or.inr h, ht.not_settled hvalid h.1 h.2⟩⟩
  have hend : z.fillEnd p.regionWords p.objs D ≤ D * p.regionWords + p.regionWords :=
    min_le_right _ _
  constructor
  case kept =>
    intro x hout
    by_contra hdiffers
    obtain ⟨w, hlive, rfl, hnew | ⟨o, ho, hnot, hcov⟩⟩ := hw.differs x hdiffers
    · obtain ⟨h1, h2⟩ := (hfills _).1 hnew
      exact hout ⟨h1, ht.forward_lt_fillEnd hvalid hlive h1 h2⟩
    · -- The object has been placed whole in the region.
      obtain ⟨hmem, hdone | ⟨h1, h2⟩⟩ := (updatedTo_fillEnd hvalid ht).2 ((hg.updated_iff o).1 ho)
      · exact hnot ((hg₀.updated_iff o).2 ⟨hmem, hdone⟩)
      · have hpast := hcov.2
        have hplace :=
          hvalid.forward_add_of_mem (k := w - o.start) hmem le_rfl (by have := hcov.1; omega)
        rw [Nat.add_sub_cancel' hcov.1] at hplace
        rw [Span.past] at hpast
        exact hout ⟨by omega, by have := hcov.1; omega⟩
  case word_eq =>
    intro o ho w hcov h1 h2
    have hlive := live_of_mem ho hcov
    have hintact := hu.moved.intact w hlive
    rw [location_of_filled ((hfills _).2 ⟨h1, lt_of_lt_of_le h2 hend⟩).1] at hintact
    refine hintact.trans ?_
    split
    case isTrue hupdated =>
      exact content_of_mem hvalid.separate hu.subset ((hg.updated_iff o).2 ⟨ho, hupdated⟩) hcov
    case isFalse hnot =>
      exact content_of_not_mem hvalid.separate hu.subset ho
        (fun h => hnot ((hg.updated_iff o).1 h).2) hcov
  case moves_iff =>
    intro w x
    rw [hw.moves_iff, hfills]
    refine and_congr_right fun hlive => and_congr_right fun heq => and_congr_right fun _ =>
      and_congr_right fun h1 => ?_
    exact ⟨fun h2 => heq ▸ ht.forward_lt_fillEnd hvalid hlive (heq ▸ h1) (heq ▸ h2),
      fun h2 => lt_of_lt_of_le h2 hend⟩
  case inOrder =>
    refine hw.inOrder fun w _ hx hnot => ?_
    obtain ⟨h1, h2⟩ := (hfills _).1 ⟨hx, hnot⟩
    exact div_eq_of_bounds h1 h2

end MarkCompact
