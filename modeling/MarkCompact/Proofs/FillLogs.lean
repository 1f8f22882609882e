import MarkCompact.Proofs.Fills
import MarkCompact.Proofs.Observations
import MarkCompact.Proofs.PlannedHeaps

/-!
# What a host is asked to fill

A filler that has been written twice looks like one that has been written once.  A `FillLog` is a
host together with the runs that it has been asked to fill; it answers as the host does.  On it one
sees what a task of a dense prefix fills: the gaps that its walk meets, each once and in order,
`taskGaps`.

Main statements: `updatePrefix_fills` and `fillRegion_keeps` (filling a region asks for no fillers).
-/

namespace MarkCompact

variable {p : Plan} {done : ℕ → Prop} {z : Zone} {D i : ℕ}

/-- A host, and the runs that it has been asked to fill, the last one first. -/
structure FillLog (μ : Type) where
  image : μ
  fills : List Run := []

namespace FillLog

variable {μ : Type} [ObjectModel μ]

instance : ObjectModel (FillLog μ) where
  Slot := ObjectModel.Slot μ
  objectWords r := ObjectModel.objectWords r.image
  slots r := ObjectModel.slots r.image
  metadataSlot r := ObjectModel.metadataSlot r.image
  read r := ObjectModel.read r.image
  write r slot cell := { r with image := ObjectModel.write r.image slot cell }
  fillDead r addr words := do
    let image ← ObjectModel.fillDead r.image addr words
    pure ⟨image, ⟨addr, words⟩ :: r.fills⟩
  copyWords r source destination words :=
    { r with image := ObjectModel.copyWords r.image source destination words }
  minimumWords r := ObjectModel.minimumWords r.image

/-- Keeping the log, a host closes the gaps that it can close. -/
lemma closesGaps {minimum : ℕ} (h : ClosesGaps μ minimum) : ClosesGaps (FillLog μ) minimum where
  minimum_eq r := h.minimum_eq r.image
  fillDead_eq r addr words hminimum hpos := by
    obtain ⟨image, heq⟩ := h.fillDead_eq r.image addr words hminimum hpos
    exact ⟨_, by simp only [ObjectModel.fillDead, heq]; rfl⟩

end FillLog

/-! ## The gaps of a task -/

/-- The gap, if the piece is one. -/
def Piece.gap? : Piece → Option Run
  | .live _ => none
  | .dead gap => some gap

namespace Heap

/-- The gaps that the walk of a task meets, in order. -/
def taskGaps {μ : Type} (h : Heap μ) (task : PrefixTask) : Except Fault (List Run) := do
  let s ← h.space task.space
  let beg ← h.ownStart s task
  let stop := h.table.regionStart task.regionEnd
  if beg < stop then
    let walk ← h.bitmap.piecesIn beg stop s.densePrefix
    pure (walk.runs.filterMap Piece.gap?)
  else pure []

variable {μ : Type} [ObjectModel μ] {h : Heap (FillLog μ)}

/-- A gap is filled by one request. -/
lemma fillGap_fills (i : ℕ) (gap : Run) :
    Leads (fun _ => True) (fillGap i gap) h fun _ h' => h'.image.fills = gap :: h.image.fills := by
  rw [fillGap, leads_bind, onImage, leads_bind, leads_get, leads_bind]
  refine leads_check.2 ⟨fun image himage => ?_, fun _ _ => trivial⟩
  obtain ⟨image', _, hpure⟩ := bind_eq_ok_iff.1 himage
  cases hpure
  exact recordFillers_steady (f := FillLog.fills) ..

omit [ObjectModel μ] in
/-- Visiting pieces, of which the live ones are no reason to fill anything, fills the gaps among
them. -/
lemma visitRuns_fills {visit : Piece → HeapAction (FillLog μ) WalkStatus} {outcome : WalkOutcome}
    {pieces : List Piece} (hlive : ∀ o h, Leads (fun _ => True) (visit (.live o)) h fun status h' =>
      status = .incomplete ∧ h'.image.fills = h.image.fills)
    (hdead : ∀ gap h, Leads (fun _ => True) (visit (.dead gap)) h fun status h' =>
      status = .incomplete ∧ h'.image.fills = gap :: h.image.fills) :
    Leads (fun _ => True) (visitRuns visit outcome pieces) h fun _ h' =>
      h'.image.fills = (pieces.filterMap Piece.gap?).reverse ++ h.image.fills := by
  induction pieces generalizing h with
  | nil => exact leads_pure.2 rfl
  | cons piece rest ih =>
    rw [visitRuns, leads_bind]
    cases piece with
    | live o =>
      refine (hlive o h).mono fun status h₁ => ?_
      rintro ⟨rfl, hfills⟩
      refine ih.mono fun _ h₂ heq => ?_
      rw [heq, hfills]
      rfl
    | dead gap =>
      refine (hdead gap h).mono fun status h₁ => ?_
      rintro ⟨rfl, hfills⟩
      refine ih.mono fun _ h₂ heq => ?_
      rw [heq, hfills, List.filterMap_cons_some (f := Piece.gap?) rfl, List.reverse_cons,
        List.append_assoc]
      rfl

/-- A task asks for its gaps to be filled, and for nothing else. -/
theorem updatePrefix_fills (task : PrefixTask) :
    Leads (fun _ => True) (updatePrefix task) h fun _ h' =>
    ∃ gaps, h.taskGaps task = .ok gaps ∧ h'.image.fills = gaps.reverse ++ h.image.fills := by
  have hupdate : ∀ i addr,
      Steady FillLog.fills (updateInPlace i addr : HeapAction (FillLog μ) Unit) :=
    updateInPlace_steady fun _ _ _ => rfl
  rw [updatePrefix, leads_bind, leads_get, leads_bind]
  refine leads_check.2 ⟨fun s hs => ?_, fun _ _ => trivial⟩
  rw [leads_bind]
  refine (claimPrefix_steady (f := FillLog.fills) _ _ h).mono fun _ h₁ hfills₁ => ?_
  rw [leads_bind]
  refine leads_check.2 ⟨fun beg hbeg => ?_, fun _ _ => trivial⟩
  extract_lets stop next visit
  have hnext : ∀ gaps h₂, h.taskGaps task = .ok gaps →
      h₂.image.fills = gaps.reverse ++ h.image.fills →
      Leads (fun _ => True) (next ()) h₂ fun _ h' =>
        ∃ gaps, h.taskGaps task = .ok gaps ∧ h'.image.fills = gaps.reverse ++ h.image.fills := by
    intro gaps h₂ heq hfills₂
    exact (completePrefix_steady (f := FillLog.fills) _ _ h₂).mono fun _ h' hfills' =>
      ⟨gaps, heq, hfills'.trans hfills₂⟩
  split
  case isTrue hlt =>
    rw [leads_bind]
    refine leads_check.2 ⟨fun walk hwalk => ?_, fun _ _ => trivial⟩
    obtain ⟨pieces, hpieces, hpure⟩ := bind_eq_ok_iff.1 hwalk
    cases hpure
    have hgaps : h.taskGaps task = .ok (pieces.runs.filterMap Piece.gap?) := by
      rw [taskGaps, hs, ok_bind, hbeg, ok_bind, if_pos hlt, hpieces]
      rfl
    rw [leads_bind]
    refine (visitRuns_fills (fun o h₂ => ?_) fun gap h₂ => ?_).mono fun outcome h₂ hfills₂ => ?_
    · exact leads_bind.2 ((hupdate _ _ h₂).mono fun _ _ hfills => leads_pure.2 ⟨rfl, hfills⟩)
    · exact leads_bind.2 ((fillGap_fills _ gap).mono fun _ _ hfills => leads_pure.2 ⟨rfl, hfills⟩)
    · rw [hfills₁] at hfills₂
      obtain ⟨_ | _ | _ | _, _ | straddler⟩ := outcome
      case incomplete.some =>
        exact leads_bind.2 ((hupdate _ _ h₂).mono
          fun _ h₃ hfills₃ => hnext _ h₃ hgaps (hfills₃.trans hfills₂))
      all_goals exact hnext _ h₂ hgaps hfills₂
  case isFalse hge =>
    have hgaps : h.taskGaps task = .ok [] := by
      rw [taskGaps, hs, ok_bind, hbeg, ok_bind, if_neg hge]
      rfl
    exact hnext [] h₁ hgaps hfills₁

end Heap

/-! ## Filling a region -/

/-- The upkeep `K`, by which `f` observes `seen` of the image. -/
def Upkeep.keeping {μ γ : Type} [ObjectModel μ] (K : Upkeep μ p) (f : μ → γ)
    (hwrite : ∀ image slot cell, f (ObjectModel.write image slot cell) = f image)
    (hcopy : ∀ image a b n, f (ObjectModel.copyWords image a b n) = f image) (seen : γ) :
    Upkeep μ p where
  may := K.may
  Holds g h := K.Holds g h ∧ f h.image = seen
  serves hh := K.serves hh.1
  withTable hh hserves := ⟨K.withTable hh.1 hserves, hh.2⟩
  withLog hh := ⟨K.withLog hh.1, hh.2⟩
  widen hh hmore hplaceless hgone := ⟨K.widen hh.1 hmore hplaceless hgone, hh.2⟩
  copyWords {g h fill s d n filled} hh hsource hdestination hpos hlive hforward hregion hempty hsafe
    hfilled := by
    refine ((K.copyWords hh.1 hsource hdestination hpos hlive hforward hregion hempty hsafe
      hfilled).and
      (Heap.copyWords_steady hcopy n fill h)).mono fun f' h' => ?_
    rintro ⟨⟨hholds, hrest⟩, hsame⟩
    exact ⟨⟨hholds, hsame.trans hh.2⟩, hrest⟩
  recordStart {g h i x z} hh hz hhas hstart := by
    refine ((K.recordStart hh.1 hz hhas hstart).and (Heap.onSpace_steady (f := f) i _ h)).mono
      fun _ h' => ?_
    rintro ⟨⟨hholds, htable⟩, hsame⟩
    exact ⟨⟨hholds, hsame.trans hh.2⟩, htable⟩
  updateObject {g h o} hh ho hnot harrived := by
    refine ((K.updateObject hh.1 ho hnot harrived).and (Heap.updateContents_steady hwrite _ h)).mono
      fun _ h' => ?_
    rintro ⟨⟨hholds, hrefilled⟩, hsame⟩
    exact ⟨⟨hholds, hsame.trans hh.2⟩, hrefilled⟩

/-- Filling a region copies words and redirects references, and does nothing else to the image. -/
theorem Heap.fillRegion_keeps {μ γ : Type} [ObjectModel μ] {K : Upkeep μ p} {h : Heap μ} {f : μ → γ}
    (hwrite : ∀ image slot cell, f (ObjectModel.write image slot cell) = f image)
    (hcopy : ∀ image a b n, f (ObjectModel.copyWords image a b n) = f image) (hp : p.Valid)
    (ht : p.Target done i z D) (hrests : K.Rests done h) :
    Leads K.may (fillRegion D) h fun _ h' => f h'.image = f h.image := by
  obtain ⟨g, hg⟩ := hrests.reached
  have hkept : (K.keeping f hwrite hcopy (f h.image)).Rests done h :=
    ⟨⟨g, { hg with holds := ⟨hg.holds, rfl⟩ }⟩, hrests.counted,
      ⟨hrests.keeps.freed, hrests.keeps.deferred⟩⟩
  refine (fillRegion_leads hp ht hkept).mono fun out h' hfilled => ?_
  obtain ⟨g', hg'⟩ := hfilled.rests.reached
  exact hg'.holds.2

end MarkCompact
