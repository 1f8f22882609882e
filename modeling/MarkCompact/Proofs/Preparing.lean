import MarkCompact.Proofs.Frames
import MarkCompact.Proofs.Marking
import MarkCompact.Proofs.Regions

/-!
# Ready to be compacted

Planning a well-formed heap in which the reachable objects are marked writes fillers into dead space
only.  What it leaves is ready to be compacted: the tables hold a plan, and the memory holds the
objects of the plan, each with a readable header and references to other objects of the plan.

Main statements: `PlannedTo.begins` (planning leaves such a heap) and `Plan.Begins.reaches`
(compaction can start from it).
-/

namespace MarkCompact

variable {p : Plan} {zones zones' : List Zone} {objects : List (List Span)} {roots : List ℕ}
  {objs fillers : List Span} {o : Span} {z : Zone} {n w x : ℕ}

/-! ## Fillers -/

namespace MemoryImage

/-- A filler has no references. -/
lemma ofHeader_fillerHeader (hpos : 0 < n) :
    Shape.ofHeader (fillerHeader n) = .ok { payload := n - 1 } := by
  have hfields : fillerHeader n / 16 % 64 = 0 ∧ fillerHeader n / 1024 % 64 = 0
      ∧ fillerHeader n / metadataFlag % 2 = 0 := by
    simp only [fillerHeader, fillerFlag, sizeUnit, metadataFlag]
    omega
  obtain ⟨hwide, hnarrow, hmetadata⟩ := hfields
  have hsub : Word.sub n 1 = .ok (n - 1) := Word.sub_eq hpos
  rw [Shape.ofHeader, hwide, hnarrow, hmetadata, fillerHeader_div]
  show (Word.sub n 1 >>= _) = _
  rw [hsub]
  rfl

/-- Fillers have been written over dead space, and every other word is as before. -/
lemma word_of_closed {image image' : MemoryImage} {e : Extent}
    (hclosed : Closed e image fillers image') (hbacks : image.Backs e) (hsep : Separate fillers)
    (hpast : ∀ o ∈ fillers, o.past ≤ e.words) (hlt : e.words < sizeLimit) :
    image'.Backs e ∧ (∀ o ∈ fillers, image'.word e o.start = fillerHeader o.words)
      ∧ ∀ x, (∀ o ∈ fillers, o.start ≠ x) → image'.word e x = image.word e x := by
  induction hclosed with
  | nil => exact ⟨hbacks, fun _ ho => absurd ho List.not_mem_nil, fun _ _ => rfl⟩
  | @cons image₁ image₂ fillers o _ heq ih =>
    obtain ⟨hbacks₁, hheaders, hkept⟩ :=
      ih hsep.tail fun o' ho' => hpast o' (List.mem_cons_of_mem _ ho')
    have hpos := hsep.words_pos o List.mem_cons_self
    have hle := hpast o List.mem_cons_self
    rw [Span.past] at hle
    have hwords : o.words < sizeLimit := by omega
    change image₁.fillDead (e.addr o.start) o.words = .ok image₂ at heq
    rw [fillDead_eq hpos hwords, Except.ok.injEq] at heq
    subst heq
    have hword := word_setWord hbacks₁ (show o.start < e.words by omega) (fillerHeader o.words)
    refine ⟨hbacks₁.setWord (by omega) (fillerHeader_lt hwords), fun o' ho' => ?_, fun x hx => ?_⟩
    · rw [hword]
      split
      case isTrue hsame => rw [hsep.eq_of_start List.mem_cons_self ho' hsame]
      case isFalse hne =>
        rcases List.mem_cons.1 ho' with rfl | hin
        · exact absurd rfl hne
        · exact hheaders o' hin
    · rw [hword, if_neg (hx o List.mem_cons_self)]
      exact hkept x fun o' ho' => hx o' (List.mem_cons_of_mem _ ho')

end MemoryImage

/-! ## Before anything has been copied -/

/-- The heap holds the plan, compaction has not begun, and the memory is that of the plan. -/
structure Plan.Begins (p : Plan) (h : Heap MemoryImage) : Prop extends p.Unbegun h where
  fits : p.FitsMemory
  sound : p.Sound
  backs : h.image.Backs p.covered
  memory : ∀ i, h.image.word p.covered i = p.memory i
  updates : h.updates = []
  starts : ∀ s ∈ h.spaces, s.starts.Between p.covered (fun _ => False) p.FinalStart

namespace Plan

lemma Begins.withLog {h : Heap MemoryImage} (hb : p.Begins h) (log : List LogRecord) :
    p.Begins { h with log } :=
  { hb with serves := hb.serves.withLog log }

/-- Before anything is copied, exactly the dense prefixes are settled. -/
lemma settled_none :
    p.Settled (fun _ => False) x ↔ ∃ z ∈ p.zones, z.first * p.regionWords ≤ x
      ∧ x < z.keep * p.regionWords :=
  or_iff_left id

/-- What is settled from the beginning stays. -/
lemma Valid.forward_of_settled (hp : p.Valid) (h : p.Settled (fun _ => False) w) :
    p.forward w = w := by
  obtain ⟨z, hz, h1, h2⟩ := settled_none.1 h
  have hord := hp.ordered z hz
  have hkeep := Nat.mul_le_mul_right p.regionWords (hord.keep_le_last p.regionWords_pos)
  rw [hp.forward_eq hz ⟨h1, lt_of_lt_of_le h2 hkeep⟩, Zone.forward, if_pos h2]

/-- What goes to a settled word is already there. -/
lemma Valid.forward_eq_self (hp : p.Valid) (hw : Live p.objs w)
    (h : p.Settled (fun _ => False) (p.forward w)) :
    p.forward w = w := by
  obtain ⟨z, hz, h1, h2⟩ := settled_none.1 h
  obtain ⟨z', hz', hhas, _⟩ := hp.exists_zone hw
  have hord := hp.ordered z hz
  have hkeep := Nat.mul_le_mul_right p.regionWords (hord.keep_le_last p.regionWords_pos)
  obtain rfl := hp.eq_of_has hz hz' ⟨h1, lt_of_lt_of_le h2 hkeep⟩ (hp.has_forward hz' hhas)
  rw [hp.forward_eq hz hhas, Zone.forward] at h2 ⊢
  split
  · rfl
  case isFalse hlt =>
    rw [if_neg hlt] at h2
    exact absurd (z.le_packed p.regionWords p.objs w) (by omega)

/-- Compaction is under way, and has done nothing yet. -/
theorem Begins.reaches {h : Heap MemoryImage} (hb : p.Begins h) :
    ∃ g, ((p.memoryUpkeep hb.fits hb.sound).framed hb.fits.toValid h.infos).Reaches
      (p.Settled fun _ => False) (fun _ => False) (fun _ => False) g h := by
  have hp := hb.fits.toValid
  refine ⟨⟨p.Settled fun _ => False, fun _ => False, [], fun _ => False⟩, ⟨?_, rfl⟩,
    fun _ => Iff.rfl,
    fun _ => iff_of_false List.not_mem_nil id, fun _ ho => absurd ho List.not_mem_nil, fun _ =>
      id, fun _ _ => id,
    fun _ => False.elim⟩
  exact
    { serves := hb.serves
      backs := hb.backs
      moved :=
        { closed := fun w _ hw => by
            rw [hp.forward_of_settled hw]
            exact hw
          intact := fun w hw => by
            rw [hb.memory]
            by_cases hsettled : p.Settled (fun _ => False) (p.forward w)
            · rw [location_of_filled hsettled, hp.forward_eq_self hw hsettled]
              rfl
            · rw [location_of_not_filled hsettled]
              rfl }
      subset := fun _ ho => absurd ho List.not_mem_nil
      nodup := List.nodup_nil
      traced := hb.updates ▸ .nil
      recorded := hb.starts
      holes := fun o _ k _ => by rw [hb.memory, holeWord, if_neg fun h => h.2]
      spared := fun x _ => hb.memory x }

end Plan

/-! ## After planning -/

namespace Heap

/-- The plan that a heap holds for some objects and zones. -/
def planOf (h : Heap MemoryImage) (objs : List Span) (zones : List Zone) : Plan :=
  ⟨h.table.covered, h.table.geometry, objs, zones, h.image.word h.table.covered⟩

namespace PlannedTo

variable {h h₁ h₂ : Heap MemoryImage} {limiter : Limiter} {maximum : Bool}
  (hp : h₁.PlannedTo limiter maximum h₂ h₁.spaces.length objs fillers zones zones')
  (hm : h.MarkedTo h₁ zones objects roots objs) (hw : h.WellFormed zones objects)
include hp

/-- The plan is that of the objects and the fillers. -/
lemma planOf_eq : h₂.planOf (fillers ++ objs) zones'
    = Plan.mk h₁.table.covered h₁.table.geometry (fillers ++ objs) zones'
    (h₂.image.word h₁.table.covered) := by
  rw [planOf, hp.shape.covered, hp.shape.geometry]

include hm

lemma covered_planOf : (h₂.planOf (fillers ++ objs) zones').covered = h.covered := by
  rw [planOf, hp.shape.covered, ← hm.marked.consistent.covered, hm.covered_eq]

lemma planOf_valid : (h₂.planOf (fillers ++ objs) zones').Valid :=
  hp.planOf_eq ▸ hp.valid hm.marked _

/-- Zones keep their bounds, so the spaces of the plan are those of the heap. -/
lemma inSpace_iff {a : ℕ} :
    (h₂.planOf (fillers ++ objs) zones').InSpace a ↔ h.isInSpace a = true := by
  rw [← hm.isInSpace_eq, hm.marked.liesOver.isInSpace_iff, Plan.InSpace, hp.covered_planOf hm,
    hm.covered_eq]
  have hwords : (h₂.planOf (fillers ++ objs) zones').regionWords
      = h₁.table.geometry.regionWords := by
    rw [hp.planOf_eq]
    rfl
  rw [hwords]
  constructor
  · rintro ⟨z', hz', hbounds⟩
    obtain ⟨j, hj⟩ := List.mem_iff_getElem?.1 hz'
    obtain ⟨z, hz, heq⟩ := hp.zone_at j z' hj
    rw [heq] at hbounds
    exact ⟨z, List.mem_of_getElem? hz, hbounds⟩
  · rintro ⟨z, hz, hbounds⟩
    obtain ⟨j, hj⟩ := List.mem_iff_getElem?.1 hz
    have hlt : j < zones'.length := hp.length_eq ▸ (List.getElem?_eq_some_iff.1 hj).1
    obtain ⟨z₀, hz₀, heq⟩ := hp.zone_at j zones'[j] (List.getElem?_eq_getElem hlt)
    cases hj.symm.trans hz₀
    exact ⟨zones'[j], List.getElem_mem hlt, by rw [heq]; exact hbounds⟩

/-- Fillers lie within the memory. -/
lemma filler_past_le (ho : o ∈ fillers) : o.past ≤ h.covered.words := by
  have hvalid := hp.planOf_valid hm
  obtain ⟨z, hz, hholds⟩ := hvalid.holds o (List.mem_append_left _ ho)
  have hord := hvalid.ordered z hz
  rw [hp.covered_planOf hm] at hord
  exact le_trans hholds.2 (le_trans hord.top_le_last hord.last_le)

include hw

/-- What planning does to the memory. -/
lemma image_eq : h₂.image.Backs h.covered
    ∧ (∀ o ∈ fillers, h₂.image.word h.covered o.start = MemoryImage.fillerHeader o.words)
    ∧ ∀ x, (∀ o ∈ fillers, o.start ≠ x) → h₂.image.word h.covered x = h.image.word h.covered x := by
  have hclosed := hp.image
  rw [hm.image_eq, ← hm.marked.consistent.covered, hm.covered_eq] at hclosed
  have hsep := hp.consistent.marks.separate
  exact MemoryImage.word_of_closed hclosed hw.backs
    ⟨fun o ho => hsep.words_pos o (List.mem_append_left _ ho),
      (List.pairwise_append.1 hsep.pairwise).1⟩ (fun o ho => hp.filler_past_le hm ho) hw.words_lt

/-- Planning changes no word of an object. -/
lemma word_eq (ho : o ∈ objs) (hx : o.Covers x) :
    h₂.image.word h.covered x = h.image.word h.covered x := by
  have hsep := hp.consistent.marks.separate
  refine (hp.image_eq hm hw).2.2 x fun o' ho' heq => ?_
  have hpos := hsep.words_pos o' (List.mem_append_left _ ho')
  obtain rfl :=
    hsep.eq_of_covers (List.mem_append_right _ ho) (List.mem_append_left _ ho') hx
      (heq ▸ Span.covers_start hpos)
  exact (List.disjoint_of_nodup_append hsep.nodup) ho' ho

variable (hreach : ∀ o, o ∈ objs ↔ h.Reachable objects.flatten roots o)
include hreach

/-- The objects of the plan have readable headers and refer to objects of the plan. -/
lemma planOf_sound : (h₂.planOf (fillers ++ objs) zones').Sound := by
  have hcovered := hp.covered_planOf hm
  obtain ⟨hbacks, hheaders, hkept⟩ := hp.image_eq hm hw
  have hmemory : (h₂.planOf (fillers ++ objs) zones').memory = h₂.image.word h.covered := by
    rw [← hcovered]
    rfl
  have hmem : ∀ o ∈ objs, o ∈ objects.flatten := fun o ho => (hm.reachable o ho).mem
  have hpos := hp.consistent.marks.separate.words_pos
  have hshape : ∀ o ∈ objs, (h₂.planOf (fillers ++ objs) zones').shape o
      = o.shape (h.image.word h.covered) := fun o ho => by
    have hword := hp.word_eq hm hw ho (Span.covers_start (hpos o (List.mem_append_right _ ho)))
    exact congrArg (fun word => Span.shape o fun _ => word) ((congrFun hmemory o.start).trans hword)
  have hfiller : ∀ o ∈ fillers, (h₂.planOf (fillers ++ objs) zones').shape o
      = { payload := o.words - 1 } := fun o ho => by
    rw [Plan.shape, hmemory, hheaders o ho,
      MemoryImage.ofHeader_fillerHeader (hpos o (List.mem_append_left _ ho))]
  constructor
  case shape_eq =>
    intro o ho
    rw [hmemory]
    rcases List.mem_append.1 ho with hin | hin
    · rw [hfiller o hin, hheaders o hin, MemoryImage.ofHeader_fillerHeader (hpos o ho)]
    · rw [hshape o hin, hp.word_eq hm hw hin (Span.covers_start (hpos o ho))]
      exact (hw.shape_eq (hmem o hin)).1
  case words_eq =>
    intro o ho
    rcases List.mem_append.1 ho with hin | hin
    · rw [hfiller o hin]
      have hfixed : Shape.fixedWords { payload := o.words - 1 } = 1 := by simp [Shape.fixedWords]
      rw [Shape.totalWords, hfixed]
      exact Nat.add_sub_cancel' (hpos o ho)
    · rw [hshape o hin]
      exact (hw.shape_eq (hmem o hin)).2
  case refers =>
    intro o ho b hb
    rcases List.mem_append.1 ho with hin | hin
    · rw [hfiller o hin] at hb
      exact absurd hb List.not_mem_nil
    · rw [hshape o hin] at hb
      obtain ⟨hload, hlt, hpoints⟩ := hw.load_eq (hmem o hin) hb
      have hindex := Shape.index_of_mem_allPlaces hb
      have hfixed := (o.shape (h.image.word h.covered)).fixedWords_le
      rw [(hw.shape_eq (hmem o hin)).2] at hfixed
      have hword := hp.word_eq hm hw hin (x := b.index) ⟨hindex.1.le, by rw [Span.past]; omega⟩
      rw [hmemory, hword]
      refine ⟨hcovered ▸ hlt, fun hspace => ?_⟩
      rw [hcovered, hp.inSpace_iff hm] at hspace
      obtain ⟨o', ho', heq⟩ := hpoints hspace
      rw [hcovered]
      have hreached : o' ∈ objs :=
        (hreach o').2 (.link ((hreach o).1 hin) ho' ((hw.loads_iff (hmem o hin)).2 ⟨b, hb, heq⟩))
      exact ⟨o'.start, heq,
        live_of_mem (List.mem_append_right _ hreached)
          (Span.covers_start (hw.separate.words_pos o' ho'))⟩

/-- Planning leaves a heap that is ready to be compacted. -/
theorem begins (hupdates : h.updates = [])
    (hstarts : ∀ s ∈ h.spaces, s.starts = .unrecorded s.starts.covered) :
    (h₂.planOf (fillers ++ objs) zones').Begins h₂ := by
  have hvalid := hp.planOf_valid hm
  have hcovered := hp.covered_planOf hm
  refine ⟨hp.planOf_eq ▸ hp.unbegun hm.marked _, ⟨hvalid, ?_, ?_⟩, hp.planOf_sound hm hw hreach, ?_,
    fun _ => rfl, ?_, ?_⟩
  · rw [hcovered]
    exact hw.base_le
  · rw [hcovered]
    exact hw.words_lt
  · rw [hcovered]
    exact (hp.image_eq hm hw).1
  · rw [hp.updates]
    obtain ⟨_, rfl⟩ := hm.bitmap
    exact hupdates
  · intro s hs
    obtain ⟨j, hj⟩ := List.mem_iff_getElem?.1 hs
    have hlt : j < h₁.spaces.length := hp.spaces_length ▸ (List.getElem?_eq_some_iff.1 hj).1
    have hspace := List.getElem?_eq_getElem hlt
    have hunrecorded : h₁.spaces[j].starts = .unrecorded h₁.spaces[j].starts.covered := by
      obtain ⟨_, rfl⟩ := hm.bitmap
      exact hstarts _ (List.getElem_mem hlt)
    have hbetween :=
      hp.starts j _ s hspace hj (fun _ => False) (h₂.planOf (fillers ++ objs) zones').FinalStart
      (hunrecorded ▸ StartTable.between_unrecorded _ _) fun o ho => ?_
    · rw [← hm.marked.consistent.covered, hm.covered_eq, ← hcovered] at hbetween
      exact hbetween
    · -- A filler starts in a dense prefix.
      obtain ⟨i, z, _, hz, hholds, hlow⟩ := hp.starts_lt o ho
      have hwords : (h₂.planOf (fillers ++ objs) zones').regionWords
          = h₁.table.geometry.regionWords := by
        rw [hp.planOf_eq]
        rfl
      refine Or.inl ⟨o, List.mem_append_left _ ho,
        hvalid.forward_of_settled (Plan.settled_none.2 ⟨z, List.mem_of_getElem? hz, ?_⟩)⟩
      rw [hwords]
      exact ⟨hholds.1, hlow⟩

end PlannedTo

end Heap

end MarkCompact
