import MarkCompact.Proofs.Draining

/-!
# The first word of a region

Planning leaves two traces of where a word goes: from the region of the word one can compute its new
place, and with the region of the place it is noted in which region the first word that goes there
lies.  A fill follows the second trace back. The word it ends at is the one that the first trace
leads from, whether an object begins there or not, and nothing that other fills do in between
changes that.

Main statements: `Plan.Serves.exists_firstWord` and `firstSource_inverts_forward` (from planning on,
in every schedule).
-/

namespace MarkCompact

variable {p : Plan} {D w : ℕ}

namespace Heap

section

variable {μ : Type}

/-- Word `w` is live and is forwarded to the address `a`. -/
structure Sends (h : Heap μ) (w a : ℕ) : Prop where
  lt_words : w < h.covered.words
  isLiveWord_eq : h.isLiveWord (h.covered.addr w) = .ok true
  forward_eq : ∃ t, h.table.forward h.bitmap (h.covered.addr w) = .ok (a, t)

/-- The object is marked and `w` is one of its words, but not the first.  The first one stays in the
dense prefix of the space or goes to a region of the space in front of region `D`. -/
structure Precedes (h : Heap μ) (s : Space) (D w : ℕ) (o : Span) : Prop where
  hasMarked : h.HasMarked o
  crosses : o.Crosses w
  placed : ∃ a, h.Sends o.start a ∧ s.bottom ≤ a ∧ a < h.table.regionStart D
    ∧ (a = h.covered.addr o.start ∧ a < s.densePrefix ∨ s.densePrefix ≤ a)

/-- Word `w` is the one live word that is forwarded to the start of region `D`, and it is found from
there. -/
structure IsFirstWord (h : Heap μ) (s : Space) (D w : ℕ) : Prop where
  firstSource_eq : h.firstSource (h.table.regionStart D) (h.table.regions.get D).source
    = .ok (h.covered.addr w)
  sends : h.Sends w (h.table.regionStart D)
  eq_of_sends : ∀ x, h.Sends x (h.table.regionStart D) → x = w
  begins : (∃ o, h.HasMarked o ∧ o.start = w) ∨ ∃ o, h.Precedes s D w o

/-- Every destination has its first word. -/
def FindsFirstWords (h : Heap μ) : Prop :=
  ∀ s ∈ h.spaces, ∀ D, s.densePrefix ≤ h.table.regionStart D → h.table.regionStart D < s.newTop →
    ∃ w, h.IsFirstWord s D w

end

end Heap

namespace Plan.Serves

variable {μ : Type} {h : Heap μ} (hs : p.Serves h) (hp : p.Valid)
include hs hp

/-- The words that are forwarded are the live ones, to their places. -/
lemma sends_iff {a : ℕ} : h.Sends w a ↔ Live p.objs w ∧ a = p.covered.addr (p.forward w) := by
  constructor
  · rintro ⟨hlt, hlive, t, heq⟩
    rw [hs.covered] at hlt hlive heq
    rw [Heap.isLiveWord_eq hs hp hlt, Except.ok.injEq, decide_eq_true_iff] at hlive
    obtain ⟨t', heq', _⟩ := hs.loaded.forward_eq hp hs.consistent.marks hs.bitmap_covered hlive
    rw [heq', Except.ok.injEq, Prod.mk.injEq] at heq
    exact ⟨hlive, heq.1.symm⟩
  · rintro ⟨hlive, rfl⟩
    have hlt : w < p.covered.words := hs.bitmap_covered ▸ hs.consistent.marks.live_lt hlive
    obtain ⟨t, heq, _⟩ := hs.loaded.forward_eq hp hs.consistent.marks hs.bitmap_covered hlive
    rw [← hs.covered] at heq ⊢
    refine ⟨hs.covered ▸ hlt, ?_, t, heq⟩
    rw [hs.covered, Heap.isLiveWord_eq hs hp hlt, decide_eq_true hlive]

/-- The words of an object that reaches into a destination come from in front of it. -/
lemma precedes {s : Space} {z : Zone} {o : Span} (hz : z ∈ p.zones)
    (hm : s.Matches p.covered p.regionWords p.objs z) (ho : o ∈ p.objs) (hcross : o.Crosses w)
    (hkeep : z.keep * p.regionWords ≤ w) (htop : w < z.top)
    (hpacked : z.packed p.regionWords p.objs w = D * p.regionWords) : h.Precedes s D w o := by
  have hord := hp.ordered z hz
  have hfirst := Nat.mul_le_mul_right p.regionWords hord.first_le_keep
  have hholds : z.Holds p.regionWords o :=
    hp.has_of_mem hz ho ⟨hcross.1.le, hcross.2⟩ (hord.has_of_le (by omega) htop)
  have hstart := hholds.1
  -- The object stays together, so its first word lies in front of the region.
  have hmove := hp.forward_add_of_mem (x := o.start) (k := w - o.start) ho le_rfl
    (by have := hcross.1; have := hcross.2; omega)
  rw [show o.start + (w - o.start) = w by have := hcross.1; omega,
    Heap.forward_eq_packed hp hz hkeep htop, hpacked] at hmove
  have hhas := hp.has_forward hz (hord.has_of_le hstart (by have := hcross.1; omega))
  refine ⟨hs.hasMarked_iff.2 ho, hcross, p.covered.addr (p.forward o.start),
    (hs.sends_iff hp).2 ⟨live_of_mem ho (Span.covers_start (hp.separate.words_pos o ho)),
      rfl⟩, ?_, ?_, ?_⟩
  · rw [hm.bottom, Extent.addr_le_addr]
    exact hhas.1
  · rw [hs.regionStart_eq, Extent.addr_lt_addr]
    have := hcross.1
    omega
  · rw [hm.densePrefix, hs.covered, Extent.addr_lt_addr, Extent.addr_le_addr]
    by_cases hbelow : o.start < z.keep * p.regionWords
    · have hstays : p.forward o.start = o.start := by
        rw [hp.forward_eq hz (hord.has_of_le hstart (by have := hcross.1; omega)), Zone.forward,
          if_pos hbelow]
      exact Or.inl ⟨congrArg _ hstays, by omega⟩
    · rw [Heap.forward_eq_packed hp hz (not_lt.1 hbelow) (by have := hcross.1; omega)]
      exact Or.inr (z.le_packed _ _ _)

/-- Every destination has its first word. -/
theorem exists_firstWord : h.FindsFirstWords := by
  intro s hspace D h1 h2
  obtain ⟨i, hi⟩ := List.mem_iff_getElem?.1 hspace
  obtain ⟨z, hzone, hm⟩ := hs.exists_zone hi
  have hz := List.mem_of_getElem? hzone
  rw [hs.regionStart_eq, hm.densePrefix, Extent.addr_le_addr] at h1
  rw [hs.regionStart_eq, hm.newTop, Extent.addr_lt_addr] at h2
  obtain ⟨w, hkeep, htop, hlive, hpacked, hsource, hfirst⟩ :=
    hs.exists_firstSource hp hz ⟨Nat.le_of_mul_le_mul_right h1 p.regionWords_pos, h2⟩
  have hforward : p.forward w = D * p.regionWords :=
    (Heap.forward_eq_packed hp hz hkeep htop).trans hpacked
  refine ⟨w, ?_, ?_, fun x hx => ?_, ?_⟩
  · rw [hsource, hs.regionStart_eq, hs.covered, hfirst]
  · rw [hs.regionStart_eq, hs.sends_iff hp, hforward]
    exact ⟨hlive, rfl⟩
  · rw [hs.regionStart_eq, hs.sends_iff hp, Extent.addr_inj] at hx
    exact hp.forward_injective hx.1 hlive (hx.2.symm.trans hforward.symm)
  · by_cases hstarts : Starts p.objs w
    · obtain ⟨o, ho, rfl⟩ := hstarts
      exact Or.inl ⟨o, hs.hasMarked_iff.2 ho, rfl⟩
    · obtain ⟨o, ho, hcross⟩ := crosses_of_live hlive hstarts
      exact Or.inr ⟨o, hs.precedes hp hz hm ho hcross hkeep htop hpacked⟩

end Plan.Serves

namespace Heap

variable {μ : Type} [ObjectModel μ] {h : Heap μ} {objs : List Span} {zones : List Zone}
  {minimum workers tasksPerWorker : ℕ}

/-- Once the spaces are planned, and in every schedule of the compaction that follows, the search
for the first word of a destination succeeds, and inverts forwarding. -/
theorem firstSource_inverts_forward (hm : h.Marked objs zones) (hcloses : ClosesGaps μ minimum)
    (hfits : h.FillersFit objs zones minimum) (hworkers : 0 < workers)
    (hmany : workers * max tasksPerWorker 1 < wordValues) (limiter : Limiter) (maximum : Bool) :
    Runs (planSpaces limiter maximum) h fun _ h₁ => h₁.FindsFirstWords
      ∧ Runs (beginCompaction workers tasksPerWorker) h₁ fun s₀ _ =>
        ∀ s, Relation.ReflTransGen Stage.Step s₀ s → s.heap.FindsFirstWords := by
  refine (hm.unplanned.planSpaces_runs hcloses hfits limiter maximum).mono fun _ h₁ => ?_
  rintro ⟨fillers, zones', hplanned⟩
  have hu := hplanned.unbegun hm.unplanned fun _ => 0
  have hp := hplanned.valid hm.unplanned fun _ => 0
  refine ⟨hu.serves.exists_firstWord hp,
    (beginCompaction_runs (Plan.hostUpkeep_closesHoles μ hp) hu hp (hu.hostReaches hp)
    hworkers hmany).mono fun s₀ _ => ?_⟩
  rintro ⟨_, _, tasks, hdivides, htracks⟩ s hsteps
  exact (htracks.reach hp hdivides hsteps).rests.serves.exists_firstWord hp

/-- Two workers compact a heap in which two objects are marked, without a dense prefix. -/
theorem firstSource_inverts_forward_fourRegions : ∃ m, (do
      let (_, m) ← fourRegions.bitmap.mark (fourRegions.covered.addr 1) 3
      let (_, m) ← m.mark (fourRegions.covered.addr 10) 2
      pure m) = .ok m
    ∧ ({ fourRegions with bitmap := m } : Heap MemoryImage).Marked [⟨10, 2⟩, ⟨1, 3⟩] [⟨0, 0, 4, 14⟩]
    ∧ 2 * max 1 1 < wordValues
    ∧ Runs (planSpaces (.ofPercent 50 80) true) { fourRegions with bitmap := m } fun _ h₁ =>
      h₁.FindsFirstWords
      ∧ Runs (beginCompaction 2 1) h₁ fun s₀ _ =>
        ∀ s, Relation.ReflTransGen Stage.Step s₀ s → s.heap.FindsFirstWords := by
  obtain ⟨m, heq, hmarked⟩ := fourRegions_marked
  exact ⟨m, heq, hmarked, by decide,
    firstSource_inverts_forward hmarked MemoryImage.closesGaps (fillersFit_one _ _ _)
    (by decide) (by decide) _ _⟩

end Heap

end MarkCompact
