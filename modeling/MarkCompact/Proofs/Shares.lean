import MarkCompact.Proofs.FirstWords
import MarkCompact.Proofs.Parsing
import MarkCompact.Proofs.Readings

/-!
# The share of one fill

Compaction is the work of many fills, in an order that nobody fixes.  Each of them has a share of
its own: the words of its region up to the new top, and nothing else in memory.  `Heap.FillsShare`
says what that comes to, in terms of where words are forwarded: what each word of the share holds,
in which order words are read, which counts go down, which object is left to be updated later.

Main statement: `fillRegion_fills_share` (from planning on, in every schedule).
-/

namespace MarkCompact

variable {p : Plan} {done : ℕ → Prop} {z : Zone} {o : Span} {D k r w x : ℕ}

namespace Heap

section

variable {μ : Type}

/-! ## What a share is -/

/-- A reference to `a` is redirected to `a'`: to the new address, if `a` lies in a space. -/
def Redirects (h : Heap μ) (a a' : ℕ) : Prop :=
  if h.isInSpace a then ∃ t, h.table.forward h.bitmap a = .ok (a', t) else a' = a

/-- Word `k` of an object of shape `s`, which held `v`, holds `v'`: its references are redirected,
and the rest of it is as it was. -/
structure RedirectsWord (h : Heap μ) (s : Shape) (k v v' : ℕ) : Prop where
  references : ∀ b ∈ s.allPlaces 0, b.index = k →
    h.Redirects (b.load h.covered (b.get v)) (b.load h.covered (b.get v'))
  rest : ∀ b : Place, b.index = k → (∀ b' ∈ s.allPlaces 0, ¬b'.Meets b) → b.get v' = b.get v

/-- The address belongs to the share of region `D` of the space. -/
def InShare (h : Heap μ) (s : Space) (D a : ℕ) : Prop :=
  h.table.regionStart D ≤ a ∧ a < min (h.table.regionStart (D + 1)) s.newTop

/-- The object is marked, has word `w`, and its head goes to the address `a`. -/
structure Carries (h : Heap μ) (o : Span) (w a : ℕ) : Prop where
  hasMarked : h.HasMarked o
  covers : o.Covers w
  sends : h.Sends o.start a

/-- Word `x` of the memory `after` holds what word `w` held in the memory `before`, apart from
redirected references: those of an object that is placed whole in region `D` are redirected, and
those of one that reaches in from the dense prefix may be. -/
inductive Delivers (h : Heap μ) (s : Space) (D : ℕ) (before after : ℕ → ℕ) (w x : ℕ) : Prop
  | whole {o : Span} {a : ℕ} (carries : h.Carries o w a) (start_le : h.table.regionStart D ≤ a)
      (past_le : a + bytesPerWord * o.words ≤ h.table.regionStart (D + 1))
      (redirects : h.RedirectsWord (o.shape before) (w - o.start) (before w) (after x)) :
      Delivers h s D before after w x
  | reaching {o : Span} {a : ℕ} (carries : h.Carries o w a) (lt : a < s.densePrefix)
      (redirects : after x = before w ∨ h.RedirectsWord (o.shape before) (w - o.start) (before w)
        (after x)) :
      Delivers h s D before after w x
  | part {o : Span} {a : ℕ} (carries : h.Carries o w a) (le : s.densePrefix ≤ a)
      (part : a < h.table.regionStart D ∨ h.table.regionStart (D + 1) < a + bytesPerWord * o.words)
      (eq : after x = before w) : Delivers h s D before after w x

/-- The head of the object goes to region `D` and its end to a later one. -/
structure SplitsAt (h : Heap μ) (D : ℕ) (o : Span) (a : ℕ) : Prop where
  hasMarked : h.HasMarked o
  sends : h.Sends o.start a
  start_le : h.table.regionStart D ≤ a
  start_lt : a < h.table.regionStart (D + 1)
  past_gt : h.table.regionStart (D + 1) < a + bytesPerWord * o.words

/-- The count of a region goes down by one.  A region below the new top whose count comes to zero is
claimed at once. -/
structure CountsDown (h h' : Heap μ) (s : Space) (r : ℕ) : Prop where
  pos : 0 < (h.table.regions.get r).count
  unclaimed : (h.table.regions.get r).isClaimed = false
  count_eq : (h'.table.regions.get r).count =
    if (h.table.regions.get r).count = 1 ∧ h.table.regionStart r < s.newTop
    then claimedCount else (h.table.regions.get r).count - 1

end

/-- What the heap `h'` and the recording in it say of a fill of region `D` of the space, which began
with the heap `h` in a cycle that began with the memory `before`. -/
structure FillsShare (before : ℕ → ℕ) (s : Space) (D : ℕ) (h : Heap MemoryImage)
    (h' : Heap (Recording MemoryImage)) : Prop where
  /-- No word outside of the share is written. -/
  kept : ∀ x, ¬h.InShare s D (h.covered.addr x) →
    h'.played.image.word h.covered x = h.image.word h.covered x
  /-- Each word of the share receives what the word that is forwarded to it held. -/
  delivered : ∀ x, h.InShare s D (h.covered.addr x) → ∃ w, h.Sends w (h.covered.addr x)
    ∧ (∀ w', h.Sends w' (h.covered.addr x) → w' = w)
    ∧ h.Delivers s D before (h'.played.image.word h.covered) w x
  /-- What is read are the words that go from elsewhere to the share, in ascending order. -/
  moves_iff : ∀ w x, h'.image.Moves h.covered w x
    ↔ h.Sends w (h.covered.addr x) ∧ w ≠ x ∧ h.InShare s D (h.covered.addr x)
  inOrder : h'.image.InOrder
  /-- The counts of the regions that words came from go down, and no other ones. -/
  countsDown : ∀ s' ∈ h.spaces, ∀ r, s'.bottom ≤ h.table.regionStart r →
    h.table.regionStart r < s'.limit → r ≠ D →
    h.Forwards r D → h.CountsDown h'.played s' r
  count_eq : ∀ s' ∈ h.spaces, ∀ r, s'.bottom ≤ h.table.regionStart r →
    h.table.regionStart r < s'.limit → r ≠ D →
    ¬h.Forwards r D → (h'.table.regions.get r).count = (h.table.regions.get r).count
  /-- An object that is split at the end of the region is noted. -/
  deferred_eq : ∀ o a, h.SplitsAt D o a → (h'.table.regions.get D).deferred = a
  deferred_none : (∀ o a, ¬h.SplitsAt D o a) → (h'.table.regions.get D).deferred = 0
  completed : (h'.table.regions.get D).isCompleted = true

end Heap

/-! ## References -/

namespace Shape

variable {s : Shape} {f : ℕ → ℕ}

/-- What is no reference stays as it is. -/
lemma get_redirectWord_of_not_meets {b : Place} (hp : p.FitsMemory)
    (hrefers : ∀ b ∈ s.allPlaces 0, p.Refers b (b.get (f b.index)))
    (hlt : ∀ b ∈ s.allPlaces 0, f b.index < wordValues) (hnot : ∀ b' ∈ s.allPlaces 0, ¬b'.Meets b) :
    b.get (p.redirectWord s b.index (f b.index)) = b.get (f b.index) := by
  have hfixed := s.fixedWords_eq
  by_cases hout : b.index = 0 ∨ s.fixedWords ≤ b.index
  · rw [Plan.redirectWord, if_pos hout]
  by_cases hnarrow : b.index < s.narrowStart
  · -- The word is all of a reference.
    have hmem : .word (0 + b.index) ∈ s.allPlaces 0 :=
      word_mem_allPlaces (Nat.pos_of_ne_zero fun h => hout (Or.inl h)) hnarrow
    exact absurd (Nat.zero_add _) (hnot _ hmem)
  · -- The lower half of the word is a reference, so this is the upper half, and none.
    have hlower : Place.half (2 * (0 + s.narrowStart) + 2 * (b.index - s.narrowStart))
        ∈ s.allPlaces 0 :=
      List.mem_append_left _ (mem_places.2 (Or.inr ⟨_, by omega, rfl⟩))
    rw [show 2 * (0 + s.narrowStart) + 2 * (b.index - s.narrowStart)
      = 2 * b.index by omega] at hlower
    have hindex : (Place.half (2 * b.index)).index = b.index :=
      Nat.mul_div_cancel_left _ (by decide)
    have hbound :=
      (hrefers _ hlower).redirectAt_lt hp.toValid hp.base_le (Place.get_lt (hlt _ hlower))
    rw [hindex, Place.get, if_neg (by omega)] at hbound
    replace hbound : p.redirectAt (.half 0) (f b.index % narrowValues) < narrowValues := hbound
    rw [Plan.redirectWord_narrow (not_lt.1 hnarrow) (by omega)]
    cases b with
    | word k => exact absurd hindex (hnot _ hlower)
    | half j =>
      have hne : 2 * (j / 2) ≠ j := hnot _ hlower
      have hspare : ¬2 * (j / 2 - s.narrowStart) + 1 < s.narrow := fun hlt' => by
        have hmem : Place.half (2 * (0 + s.narrowStart) + (2 * (j / 2 - s.narrowStart) + 1))
            ∈ s.allPlaces 0 :=
          List.mem_append_left _ (mem_places.2 (Or.inr ⟨_, hlt', rfl⟩))
        refine hnot _ hmem ?_
        rw [Place.index] at hnarrow
        show 2 * (0 + s.narrowStart) + (2 * (j / 2 - s.narrowStart) + 1) = j
        omega
      rw [Place.index] at hbound ⊢
      rw [if_neg hspare, Place.get, Place.get, if_pos (by omega), if_pos (by omega), Nat.mul_comm,
        Nat.mul_add_div (by decide), Nat.div_eq_of_lt hbound, Nat.add_zero]

end Shape

namespace Plan.Serves

variable {μ : Type} {h : Heap μ}

/-- A reference is redirected as the plan says. -/
lemma redirects (hs : p.Serves h) (hp : p.Valid) {a : ℕ} (hknown : p.Known a) :
    h.Redirects a (p.redirect a) := by
  rw [Heap.Redirects]
  split
  case isTrue hin =>
    rw [hs.isInSpace_iff hp] at hin
    obtain ⟨w, rfl, hw⟩ := hknown hin
    obtain ⟨t, heq, _⟩ := hs.loaded.forward_eq hp hs.consistent.marks hs.bitmap_covered hw
    exact ⟨t, by rw [heq, redirect_addr hin]⟩
  case isFalse hout => exact redirect_of_not_inSpace fun hin => hout ((hs.isInSpace_iff hp).2 hin)

/-- A word of an object is redirected as the plan says. -/
lemma redirectsWord (hs : p.Serves h) (hp : p.SelfContained) (ho : o ∈ p.objs) (k : ℕ) :
    h.RedirectsWord (p.shape o) k (p.memory (o.start + k))
      (p.redirectWord (p.shape o) k (p.memory (o.start + k))) := by
  have hrefers : ∀ b ∈ (p.shape o).allPlaces 0, p.Refers b (b.get (p.memory (o.start + b.index))) :=
    fun b hb => hp.refers ho hb
  have hlt : ∀ b ∈ (p.shape o).allPlaces 0, p.memory (o.start + b.index) < wordValues := fun b hb =>
    hp.memory_lt _ (live_of_mem ho (Span.covers_add (hp.index_lt ho hb)))
  constructor
  case references =>
    rintro b hb rfl
    rw [Shape.get_redirected (f := fun k => p.memory (o.start + k))
      (g := fun k => p.redirectWord (p.shape o) k (p.memory (o.start + k))) hp.fits hrefers hlt
        (fun _ _ => rfl) hb,
      hs.covered, (hp.refers ho hb).load_redirectAt hp.fits.base_le]
    exact hs.redirects hp.fits.toValid (hp.refers ho hb).known
  case rest =>
    rintro b rfl hnot
    exact Shape.get_redirectWord_of_not_meets (f := fun k => p.memory (o.start + k)) hp.fits
      hrefers hlt hnot

end Plan.Serves

/-! ## What is delivered -/

namespace Plan

/-- What the plan knows of an object: it is as it was in the memory `before`, or it is a filler of a
dense prefix. -/
inductive Origin (p : Plan) (before : ℕ → ℕ) (o : Span) : Prop
  | live (memory_eq : ∀ w, o.Covers w → p.memory w = before w)
      (shape_eq : p.shape o = o.shape before) : Origin p before o
  | filler {z : Zone} (memory_eq : ∀ w, o.Covers w → w ≠ o.start → p.memory w = before w)
      (places_eq : (p.shape o).allPlaces 0 = [])
      (mem : z ∈ p.zones) (holds : z.Holds p.regionWords o)
      (start_lt : o.start < z.keep * p.regionWords) : Origin p before o

namespace Serves

lemma carries_iff {μ : Type} {h : Heap μ} (hs : p.Serves h) (hp : p.Valid) {a : ℕ} :
    h.Carries o w a ↔ o ∈ p.objs ∧ o.Covers w ∧ a = p.covered.addr (p.forward o.start) := by
  constructor
  · rintro ⟨hmarked, hcov, hsends⟩
    exact ⟨hs.hasMarked_iff.1 hmarked, hcov, ((hs.sends_iff hp).1 hsends).2⟩
  · rintro ⟨ho, hcov, rfl⟩
    exact ⟨hs.hasMarked_iff.2 ho, hcov,
      (hs.sends_iff hp).2 ⟨live_of_mem ho (Span.covers_start (hp.separate.words_pos o ho)), rfl⟩⟩

/-- The share of a region is what its fill fills. -/
lemma inShare_iff {μ : Type} {h : Heap μ} {s : Space} (hs : p.Serves h)
    (hm : s.Matches p.covered p.regionWords p.objs z) :
    h.InShare s D (p.covered.addr x)
      ↔ D * p.regionWords ≤ x ∧ x < z.fillEnd p.regionWords p.objs D := by
  rw [Heap.InShare, hs.regionStart_eq, hs.regionStart_eq, hm.newTop, Extent.addr_le_addr,
    lt_min_iff, Extent.addr_lt_addr, Extent.addr_lt_addr, Zone.fillEnd, lt_min_iff, Nat.succ_mul]
  exact and_congr_right fun _ => and_comm

end Serves

namespace Valid

variable (hp : p.Valid) (hz : z ∈ p.zones)
include hp hz

/-- An object with a word that goes to the zone lies in the zone. -/
lemma holds_of_forward (ho : o ∈ p.objs) (hcov : o.Covers w)
    (hhas : z.Has p.regionWords (p.forward w)) :
    z.Holds p.regionWords o := by
  obtain ⟨z', hz', hhas', _⟩ := hp.exists_zone (live_of_mem ho hcov)
  obtain rfl := hp.eq_of_has hz hz' hhas (hp.has_forward hz' hhas')
  exact hp.has_of_mem hz ho hcov hhas'

/-- What goes behind the dense prefix comes from behind it. -/
lemma keep_le_of_forward (hholds : z.Holds p.regionWords o)
    (h : z.keep * p.regionWords ≤ p.forward o.start) :
    z.keep * p.regionWords ≤ o.start := by
  by_contra hlt
  rw [hp.forward_of_lt_keep hz hholds.1 (not_le.1 hlt)] at h
  exact hlt h

end Valid

namespace Target

variable {i : ℕ} (ht : p.Target done i z D) (hp : p.Valid)
include ht hp

/-- Every word that a fill fills is the place of a live word. -/
lemma exists_live (h1 : D * p.regionWords ≤ x) (h2 : x < z.fillEnd p.regionWords p.objs D) :
    ∃ w, Live p.objs w ∧ p.forward w = x := by
  have hkeep := Nat.mul_le_mul_right p.regionWords ht.keep_le
  obtain ⟨w, hw1, hw2, hlive, rfl⟩ :=
    Zone.exists_live_packed (le_trans hkeep h1) (lt_of_lt_of_le h2 (min_le_left _ _))
  exact ⟨w, hlive, Heap.forward_eq_packed hp ht.mem hw1 hw2⟩

/-- A moving object, some of which goes to the region, is split unless its place lies in the
region. -/
lemma split_of_part (ho : o ∈ p.objs) (hcov : o.Covers w) (h1 : D * p.regionWords ≤ p.forward w)
    (h2 : p.forward w < D * p.regionWords + p.regionWords)
    (hkeep : z.keep * p.regionWords ≤ p.forward o.start)
    (hpart : p.forward o.start < D * p.regionWords
      ∨ D * p.regionWords + p.regionWords < p.forward o.start + o.words) :
    p.Split o := by
  have hholds := hp.holds_of_forward ht.mem ho hcov (ht.has hp h1 h2).1
  refine ⟨⟨z, ht.mem, hholds, hp.keep_le_of_forward ht.mem hholds hkeep⟩, ?_⟩
  have hplace :=
    hp.forward_add_of_mem (k := w - o.start) ho le_rfl
      (by rw [Nat.add_sub_cancel' hcov.1]; exact hcov.2)
  rw [Nat.add_sub_cancel' hcov.1] at hplace
  have hpast := hcov.2
  rw [Span.past] at hpast
  by_cases hfront : p.forward o.start < D * p.regionWords
  · have hle :=
      Nat.mul_le_mul_right p.regionWords
        (show p.forward o.start / p.regionWords + 1 ≤ D from div_lt_of_lt_mul hfront)
    rw [Nat.succ_mul] at hle
    omega
  · rw [div_eq_of_bounds (not_lt.1 hfront) (by omega)]
    exact hpart.resolve_left hfront

/-- The object that is split at the end of the region. -/
lemma splitsAt_iff {μ : Type} {h : Heap μ} (hs : p.Serves h) {a : ℕ} :
    h.SplitsAt D o a ↔ o ∈ p.objs ∧ p.Split o ∧ p.forward o.start / p.regionWords = D
      ∧ a = p.covered.addr (p.forward o.start) := by
  have hend : ∀ x n, p.covered.addr x < p.covered.addr n + bytesPerWord * o.words
      ↔ x < n + o.words := fun x n => by
    rw [Extent.addr_add, Extent.addr_lt_addr]
  constructor
  · rintro ⟨hmarked, hsends, h1, h2, h3⟩
    have ho := hs.hasMarked_iff.1 hmarked
    obtain ⟨-, rfl⟩ := (hs.sends_iff hp).1 hsends
    rw [hs.regionStart_eq, Extent.addr_le_addr] at h1
    rw [hs.regionStart_eq, Extent.addr_lt_addr, Nat.succ_mul] at h2
    rw [hs.regionStart_eq, hend, Nat.succ_mul] at h3
    have hcov := Span.covers_start (hp.separate.words_pos o ho)
    have hkeep := Nat.mul_le_mul_right p.regionWords ht.keep_le
    exact ⟨ho, ht.split_of_part hp ho hcov h1 h2 (le_trans hkeep h1) (Or.inr h3),
      div_eq_of_bounds h1 h2, rfl⟩
  · rintro ⟨ho, hsplit, hregion, rfl⟩
    have hpast := hsplit.2
    obtain ⟨h1, h2⟩ := div_mul_bounds p.regionWords_pos (p.forward o.start)
    rw [hregion] at h1 h2 hpast
    refine ⟨hs.hasMarked_iff.2 ho,
      (hs.sends_iff hp).2 ⟨live_of_mem ho (Span.covers_start (hp.separate.words_pos o ho)),
        rfl⟩, ?_, ?_, ?_⟩
    · rwa [hs.regionStart_eq, Extent.addr_le_addr]
    · rwa [hs.regionStart_eq, Extent.addr_lt_addr, Nat.succ_mul]
    · rwa [hs.regionStart_eq, hend, Nat.succ_mul]

end Target

/-! ## What a fill does -/

/-- A word that goes to the region is delivered there. -/
lemma Target.delivers {μ : Type} {h : Heap μ} {s : Space} {i : ℕ} {before after : ℕ → ℕ}
    (ht : p.Target done i z D) (hp : p.SelfContained) (hs : p.Serves h)
    (hm : s.Matches p.covered p.regionWords p.objs z) (ho : o ∈ p.objs)
    (horigin : p.Origin before o) (hcov : o.Covers w) (h1 : D * p.regionWords ≤ p.forward w)
    (h2 : p.forward w < z.fillEnd p.regionWords p.objs D)
    (hword : after (p.forward w) = open Classical in
      if (done (p.forward o.start / p.regionWords) ∨ p.forward o.start / p.regionWords
        = D) ∧ ¬p.Split o
        then p.redirectWord (p.shape o) (w - o.start) (p.memory w) else p.memory w) :
    h.Delivers s D before after w (p.forward w) := by
  have hvalid := hp.fits.toValid
  have hkeep := Nat.mul_le_mul_right p.regionWords ht.keep_le
  have hcarries := (hs.carries_iff hvalid).2 ⟨ho, hcov, rfl⟩
  have hredirects := hs.redirectsWord hp ho (w - o.start)
  rw [Nat.add_sub_cancel' hcov.1] at hredirects
  replace h2 := lt_of_lt_of_le h2 (min_le_right _ _)
  have hhas := (ht.has hvalid h1 h2).1
  have hholds := hvalid.holds_of_forward ht.mem ho hcov hhas
  cases horigin with
  | filler hmemory hplaces hz' hholds' hlt =>
    -- A filler stays, and a filler has no references.
    obtain rfl := hvalid.eq_of_has ht.mem hz' (hholds.has (hvalid.ordered _ ht.mem) hcov)
      (hholds'.has (hvalid.ordered _ hz') hcov)
    have hstays := hvalid.forward_of_lt_keep ht.mem hholds.1 hlt
    have hne : w ≠ o.start := by
      rintro rfl
      rw [hstays] at h1
      omega
    have hrest :=
      hredirects.rest (.word (w - o.start))
        rfl (by rw [hplaces]; exact fun _ hb => absurd hb List.not_mem_nil)
    refine .reaching hcarries
      (by rw [hm.densePrefix, Extent.addr_lt_addr, hstays]; exact hlt) (Or.inl ?_)
    rw [hword, ← hmemory w hcov hne]
    split
    · exact hrest
    · rfl
  | live hmemory hshape =>
    rw [hmemory w hcov, hshape] at hredirects hword
    by_cases hreaches : p.forward o.start < z.keep * p.regionWords
    · refine .reaching hcarries (by rwa [hm.densePrefix, Extent.addr_lt_addr]) ?_
      rw [hword]
      split
      · exact Or.inr hredirects
      · exact Or.inl rfl
    have hend := p.covered.addr_add (p.forward o.start) o.words
    by_cases hwhole : D * p.regionWords ≤ p.forward o.start
      ∧ p.forward o.start + o.words ≤ D * p.regionWords + p.regionWords
    · have hpos := hvalid.separate.words_pos o ho
      have hregion : p.forward o.start / p.regionWords = D := div_eq_of_bounds hwhole.1 (by omega)
      refine .whole hcarries (by rw [hs.regionStart_eq, Extent.addr_le_addr]; exact hwhole.1)
        (by rw [hs.regionStart_eq, hend, Extent.addr_le_addr, Nat.succ_mul]; exact hwhole.2) ?_
      have hnot : ¬p.Split o := fun hsplit => by
        have hout := hsplit.2
        rw [hregion] at hout
        omega
      rw [hword, if_pos ⟨Or.inr hregion, hnot⟩]
      exact hredirects
    · have hpart : p.forward o.start < D * p.regionWords
          ∨ D * p.regionWords + p.regionWords < p.forward o.start + o.words := by omega
      have hsplit := ht.split_of_part hvalid ho hcov h1 h2 (not_lt.1 hreaches) hpart
      refine .part hcarries
        (by rw [hm.densePrefix, Extent.addr_le_addr]; exact not_lt.1 hreaches) ?_ ?_
      · rw [hs.regionStart_eq, hs.regionStart_eq, hend, Extent.addr_lt_addr, Extent.addr_lt_addr,
          Nat.succ_mul]
        exact hpart
      · rw [hword, if_neg fun h => h.2 hsplit]

/-- Words of a dense prefix are forwarded into no other region. -/
lemma Serves.keep_le_of_forwards {μ : Type} {h : Heap μ} (hs : p.Serves h) (hp : p.Valid)
    (hz : z ∈ p.zones) (hfirst : z.first ≤ r) (hforwards : h.Forwards r D) (hne : r ≠ D) :
    z.keep ≤ r := by
  by_contra hlt
  obtain ⟨w, hw, hlive, hr, target, t, hforward, hD⟩ := hforwards
  obtain ⟨hlive', rfl⟩ := (hs.sends_iff hp).1 ⟨hw, hlive, t, hforward⟩
  rw [hs.covered] at hr hw
  have hregion : ∀ x, x < p.covered.words →
      h.table.regionOf (p.covered.addr x) = .ok (x / p.regionWords) := fun x hx => by
    have := hs.loaded.laid.regionOf_addr (i := x) (by rw [hs.loaded.covered]; exact hx.le)
    rwa [hs.loaded.covered, hs.loaded.regionWords_eq] at this
  rw [hregion w hw, Except.ok.injEq] at hr
  obtain ⟨h1, h2⟩ := div_mul_bounds p.regionWords_pos w
  have hstart := Nat.mul_le_mul_right p.regionWords hfirst
  have hend := Nat.mul_le_mul_right p.regionWords (show r + 1 ≤ z.keep by omega)
  rw [Nat.succ_mul] at hend
  rw [hr] at h1 h2
  rw [hp.forward_of_lt_keep hz (by omega) (by omega), hregion w hw, Except.ok.injEq, hr] at hD
  exact hne hD

section

variable {μ : Type} [ObjectModel μ] {K : Upkeep μ p} {h h' : Heap μ} {s : Space} {i : ℕ}
  (hp : p.Valid) (ht : p.Target done i z D) (hrests : K.Rests done h)
  (hrests' : K.Rests (fun r => done r ∨ r = D) h')
include hp ht hrests hrests'

/-- The count of a region that words come from goes down. -/
lemma Target.countsDown {z' : Zone} (hz' : z' ∈ p.zones)
    (hm : s.Matches p.covered p.regionWords p.objs z') (hkeep : z'.keep ≤ r) (hlast : r < z'.last)
    (hne : r ≠ D) (hforwards : h.Forwards r D) : h.CountsDown h' s r := by
  have hs := hrests.serves
  have hfeeds := (hs.forwards_iff hp hz' hkeep hlast).1 hforwards
  have hlt : D < r := lt_of_le_of_ne (hfeeds.le p.regionWords_pos hkeep) hne.symm
  have hnot : ¬z'.Freed p.regionWords p.objs done r := Zone.not_freed_of_feeds hfeeds hlt ht.fresh
  have htake : z'.owed p.regionWords p.objs done r
      = z'.owed p.regionWords p.objs (fun r => done r ∨ r = D) r + 1 :=
    Zone.owed_take hlt hfeeds ht.fresh fun _ => Iff.rfl
  have hcount := hrests.count_eq hz' hkeep hlast hnot
  refine ⟨by omega, ?_, ?_⟩
  · rw [Bool.eq_false_iff, ne_eq, hrests.isClaimed_iff hz' hkeep hlast]
    exact hnot
  · have hdone : ¬(done r ∨ r = D) := by
      rintro (hdone | rfl)
      · exact hnot (hrests.keeps.freed z' hz' r hkeep hlast hdone)
      · exact hne rfl
    have hfreed : z'.Freed p.regionWords p.objs (fun r => done r ∨ r = D) r
        ↔ (h.table.regions.get r).count = 1 ∧ h.table.regionStart r < s.newTop := by
      rw [Zone.Freed, Zone.Receives, hs.regionStart_eq, hm.newTop, Extent.addr_lt_addr, hcount,
        htake, Zone.newTop]
      exact ⟨fun h => ⟨by omega, h.1.2⟩, fun h => ⟨⟨hkeep, h.2⟩, by omega⟩⟩
    rw [hrests'.counted.count z' hz' r hkeep hlast]
    split
    case isTrue hlast' => exact Zone.countOf_of_freed (hfreed.2 hlast') hdone
    case isFalse hmore =>
      rw [Zone.countOf_of_not_freed fun h => hmore (hfreed.1 h)]
      omega

/-- The count of a region that no word comes from stays. -/
lemma Target.count_eq {z' : Zone} (hz' : z' ∈ p.zones) (hfirst : z'.first ≤ r) (hlast : r < z'.last)
    (hne : r ≠ D) (hforwards : ¬h.Forwards r D) :
    (h'.table.regions.get r).count = (h.table.regions.get r).count := by
  have hdone : done r ∨ r = D ↔ done r := or_iff_left hne
  by_cases hkeep : z'.keep ≤ r
  · rw [hrests.serves.forwards_iff hp hz' hkeep hlast] at hforwards
    rw [hrests'.counted.count z' hz' r hkeep hlast, hrests.counted.count z' hz' r hkeep hlast]
    refine Zone.countOf_congr hdone fun q _ hfeeds => or_iff_left ?_
    rintro rfl
    exact hforwards hfeeds
  · obtain ⟨h1, h2⟩ | ⟨h1, h2⟩ := hrests.counted.kept z' hz' r hfirst (not_le.1 hkeep)
    all_goals obtain ⟨h3, h4⟩ | ⟨h3, h4⟩ := hrests'.counted.kept z' hz' r hfirst (not_le.1 hkeep)
    · rw [h2, h4]
    · exact absurd (hdone.2 h1) h3
    · exact absurd (hdone.1 h3) h1
    · rw [h2, h4]

end

/-- A fill does its share. -/
theorem Target.fillsShare {h : Heap MemoryImage} {h' : Heap (Recording MemoryImage)} {s : Space}
    {i : ℕ} {before : ℕ → ℕ} (ht : p.Target done i z D) (hp : p.SelfContained)
    (hrests : (p.memoryUpkeep hp.fits hp.sound).Rests done h)
    (hrests' : (p.memoryUpkeep hp.fits hp.sound).Rests (fun r => done r ∨ r = D) h'.played)
    (hreads : p.Reads done z D h h') (hm : s.Matches p.covered p.regionWords p.objs z)
    (horigin : ∀ o ∈ p.objs, p.Origin before o) :
    h.FillsShare before s D h' := by
  have hvalid := hp.fits.toValid
  have hs := hrests.serves
  have hlast := ht.lt_last hvalid
  have hdeferred := hrests'.keeps.deferred z ht.mem D ht.keep_le hlast (Or.inr rfl)
  constructor
  case kept =>
    intro x hout
    rw [hs.covered] at hout ⊢
    exact hreads.kept x fun hin => hout ((hs.inShare_iff hm).2 hin)
  case delivered =>
    intro x hin
    rw [hs.covered] at hin ⊢
    obtain ⟨h1, h2⟩ := (hs.inShare_iff hm).1 hin
    obtain ⟨w, hlive, rfl⟩ := ht.exists_live hvalid h1 h2
    obtain ⟨o, ho, hcov⟩ := id hlive
    refine ⟨w, (hs.sends_iff hvalid).2 ⟨hlive, rfl⟩, fun w' hsends => ?_,
      ht.delivers hp hs hm ho (horigin o ho) hcov h1 h2 (hreads.word_eq o ho w hcov h1 h2)⟩
    obtain ⟨hlive', heq⟩ := (hs.sends_iff hvalid).1 hsends
    exact hvalid.forward_injective hlive' hlive (Extent.addr_inj.1 heq).symm
  case moves_iff =>
    intro w x
    rw [hs.covered, hreads.moves_iff, hs.sends_iff hvalid, hs.inShare_iff hm,
      Extent.addr_inj, and_assoc]
    exact and_congr_right fun _ => and_congr_left' eq_comm
  case inOrder => exact hreads.inOrder
  case countsDown =>
    intro s' hspace r h1 h2 hne hforwards
    obtain ⟨z', hz', hm', hlast', hfirst', -⟩ := hs.exists_region hspace h2
    have hkeep' := hs.keep_le_of_forwards hvalid hz' (hfirst' h1) hforwards hne
    exact ht.countsDown hvalid hrests hrests' hz' hm' hkeep' hlast' hne hforwards
  case count_eq =>
    intro s' hspace r h1 h2 hne hforwards
    obtain ⟨z', hz', -, hlast', hfirst', -⟩ := hs.exists_region hspace h2
    exact ht.count_eq hvalid hrests hrests' hz' (hfirst' h1) hlast' hne hforwards
  case deferred_eq =>
    intro o a hsplits
    obtain ⟨ho, hsplit, hregion, rfl⟩ := (ht.splitsAt_iff hvalid hs).1 hsplits
    have hpast := hsplit.2
    obtain ⟨h1, h2⟩ := div_mul_bounds p.regionWords_pos (p.forward o.start)
    rw [hregion] at h1 h2 hpast
    have hlt :=
      ht.forward_lt_fillEnd hvalid
        (live_of_mem ho (Span.covers_start (hvalid.separate.words_pos o ho))) h1 h2
    have hle : z.fillEnd p.regionWords p.objs D ≤ p.forward o.start + o.words :=
      le_trans (min_le_right _ _) hpast.le
    show (h'.played.table.regions.get D).deferred = _
    generalize (h'.played.table.regions.get D).deferred = noted at hdeferred
    cases hdeferred with
    | none hwhole => exact absurd hregion (hwhole o ho hsplit)
    | some ho' hsplit' hregion' => rw [ht.eq_of_split hvalid ho hlt hle ho' hsplit' hregion']
  case deferred_none =>
    intro hnone
    show (h'.played.table.regions.get D).deferred = _
    generalize (h'.played.table.regions.get D).deferred = noted at hdeferred
    cases hdeferred with
    | none _ => rfl
    | some ho hsplit hregion =>
      exact absurd ((ht.splitsAt_iff hvalid hs).2 ⟨ho, hsplit, hregion, rfl⟩) (hnone _ _)
  case completed => exact (hrests'.isCompleted_iff ht.mem ht.keep_le hlast).2 (Or.inr rfl)

end Plan

namespace Heap

variable {h : Heap MemoryImage} {zones : List Zone} {objects : List (List Span)} {strong : List ℕ}
  {workers tasksPerWorker : ℕ}

/-- An object of a plan is as it was, or a filler of a dense prefix. -/
lemma WellFormed.plan_origin (hw : h.WellFormed zones objects)
    (hpoints : ∀ a ∈ strong, h.Points objects.flatten a) (limiter : Limiter) (maximum : Bool)
    (ho : o ∈ (h.plan zones objects strong limiter maximum).objs) :
    (h.plan zones objects strong limiter maximum).Origin (h.image.word h.covered) o := by
  rcases List.mem_append.1 ho with hfiller | hlive
  · obtain ⟨z, hz, hholds, hlt⟩ := filler_of_planned hfiller
    have hsep := (hw.plan_fits hpoints limiter maximum).separate
    refine .filler (fun w hcov hne => WellFormed.plan_memory_of_not_start fun o' ho' hstart => ?_)
      (hw.plan_places_of_planned hpoints hfiller) hz hholds hlt
    have hcov' : o'.Covers w :=
      hstart ▸ Span.covers_start (hsep.words_pos o' (List.mem_append_left _ ho'))
    rw [hsep.eq_of_covers (List.mem_append_left _ ho') ho hcov' hcov] at hstart
    exact hne hstart.symm
  · exact .live (fun w hcov => hw.plan_memory hpoints hlive hcov) (hw.plan_shape hpoints hlive)

/-- From the beginning of a cycle on, in every schedule of its compaction, a fill of a claimed
region does its share, no more and no less.  What it reads is recorded on the way, which changes
nothing else. -/
theorem fillRegion_fills_share (hw : h.WellFormed zones objects)
    (hpoints : ∀ a ∈ strong, h.Points objects.flatten a) (hworkers : 0 < workers)
    (hmany : workers * max tasksPerWorker 1 < wordValues) (limiter : Limiter) (maximum : Bool)
    (number : ℕ) :
    Runs (prepare limiter maximum number strong) h fun _ h₁ =>
      Runs (beginCompaction workers tasksPerWorker) h₁ fun s₀ _ =>
      ∀ s, Relation.ReflTransGen Stage.Step s₀ s → ∀ sp ∈ s.heap.spaces, ∀ D,
        sp.densePrefix ≤ s.heap.table.regionStart D → s.heap.table.regionStart D < sp.newTop →
        (s.heap.table.regions.get D).isClaimed = true →
        (s.heap.table.regions.get D).isCompleted = false →
        Runs (fillRegion D) s.heap.recording fun out h' =>
          fillRegion D s.heap = .ok (out, h'.played)
            ∧ s.heap.FillsShare (h.image.word h.covered) sp D h' := by
  refine (hw.prepare_runs hpoints limiter maximum number).mono fun _ h₁ => ?_
  rintro ⟨-, hb, -⟩
  have hp := hw.plan_selfContained hpoints limiter maximum
  have hvalid := hp.fits.toValid
  have hcloses := Plan.memoryUpkeep_closesHoles hp.fits hp.sound
  obtain ⟨g, hg⟩ := hb.reaches
  refine (beginCompaction_runs hcloses hb.toUnbegun hvalid
    ⟨g, { hg with holds := hg.holds.1 }⟩ hworkers hmany).mono
    fun s₀ _ => ?_
  rintro ⟨-, -, tasks, hdivides, htracks⟩ s hsteps sp hspace D h1 h2 hclaimed hcompleted
  have hrests := (htracks.reach hvalid hdivides hsteps).rests
  have hs := hrests.serves
  obtain ⟨i, hi⟩ := List.mem_iff_getElem?.1 hspace
  obtain ⟨z, hz, hm⟩ := hs.exists_zone hi
  have hmem := List.mem_of_getElem? hz
  rw [hs.regionStart_eq, hm.densePrefix, Extent.addr_le_addr] at h1
  rw [hs.regionStart_eq, hm.newTop, Extent.addr_lt_addr] at h2
  have hkeep := Nat.le_of_mul_le_mul_right h1 (Plan.regionWords_pos _)
  have hlast := Zone.Receives.lt_last ⟨hkeep, h2⟩ (hvalid.ordered z hmem)
  -- What is claimed and not completed can be filled.
  have hfreed := (hrests.isClaimed_iff hmem hkeep hlast).1 hclaimed
  have ht : Plan.Target _ s.Done i z D := ⟨hz, hfreed, fun hdone => by
    rw [(hrests.isCompleted_iff hmem hkeep hlast).2 hdone] at hcompleted
    exact Bool.noConfusion hcompleted⟩
  refine (fillRegion_reads hp.fits hp.sound ht hrests).mono fun _ h' => ?_
  rintro ⟨heq, hrests', hreads⟩
  exact ⟨heq, ht.fillsShare hp hrests hrests' hreads hm
    fun o ho => hw.plan_origin hpoints limiter maximum ho⟩

/-- In the example heap, with its first object as the only root, the second region is claimed at
once.  Its fill does its share. -/
theorem fillRegion_fills_share_linked : linked.WellFormed [⟨0, 0, 4, 14⟩] linkedObjects
    ∧ (∀ a ∈ [64], linked.Points linkedObjects.flatten a) ∧ 2 * max 1 1 < wordValues
    ∧ Runs (prepare (.ofPercent 50 80) true 1 [64]) linked fun _ h₁ =>
      Runs (beginCompaction 2 1) h₁ fun s₀ _ =>
      ∃ sp ∈ s₀.heap.spaces,
        (sp.densePrefix ≤ s₀.heap.table.regionStart 1 ∧ s₀.heap.table.regionStart 1 < sp.newTop
        ∧ (s₀.heap.table.regions.get 1).isClaimed = true
        ∧ (s₀.heap.table.regions.get 1).isCompleted = false)
        ∧ Runs (fillRegion 1) s₀.heap.recording fun out h' =>
          fillRegion 1 s₀.heap = .ok (out, h'.played)
            ∧ s₀.heap.FillsShare (linked.image.word linked.covered) sp 1 h' := by
  refine ⟨linked_wellFormed, linked_root, by decide, ?_⟩
  obtain ⟨out₁, h₁, heq₁, s₀, h₂, heq₂, hall⟩ :=
    fillRegion_fills_share linked_wellFormed linked_root
    (show 0 < 2 by decide) (show 2 * max 1 1 < wordValues by decide) (.ofPercent 50 80) true 1
  have hcheck : (match prepare (.ofPercent 50 80) true 1 [64] linked with
    | .ok (_, h₁) => match beginCompaction 2 1 h₁ with
      | .ok (s₀, _) => decide (∃ sp ∈ s₀.heap.spaces, sp.densePrefix ≤ s₀.heap.table.regionStart 1
          ∧ s₀.heap.table.regionStart 1 < sp.newTop ∧ (s₀.heap.table.regions.get 1).isClaimed = true
          ∧ (s₀.heap.table.regions.get 1).isCompleted = false)
      | .error _ => false
    | .error _ => false) = true := by decide +kernel
  simp only [heq₁, heq₂, decide_eq_true_eq] at hcheck
  obtain ⟨sp, hspace, hbounds⟩ := hcheck
  exact ⟨out₁, h₁, heq₁, s₀, h₂, heq₂, sp, hspace, hbounds,
    hall s₀ .refl sp hspace 1 hbounds.1 hbounds.2.1 hbounds.2.2.1 hbounds.2.2.2⟩

end Heap

end MarkCompact
