import MarkCompact.Proofs.Upkeep

/-!
# What compaction leaves alone

Compaction records starts in the spaces and changes nothing else of them.  `K.framed infos` is the
upkeep `K` with that added to it: the spaces, apart from their start tables, are those in `infos`.
-/

namespace MarkCompact

variable {p : Plan} {i addr : ℕ}

/-- The space without what its start table has recorded. -/
def Space.info (s : Space) : Space :=
  { s with starts := .unrecorded s.starts.covered }

/-- Recording a start changes nothing else of the space. -/
lemma Space.info_recordStart {s s' : Space} (h : s.recordStart addr = .ok s') :
    s'.info = s.info := by
  unfold recordStart StartTable.record at h
  cases hcard : s.starts.cardOf addr with
  | error fault =>
    rw [hcard] at h
    cases h
  | ok card =>
    rw [hcard] at h
    cases h
    rfl

namespace Heap

variable {μ : Type} {h : Heap μ} {any : Fault → Prop}

/-- The spaces of the heap without what their start tables have recorded. -/
def infos (h : Heap μ) : List Space :=
  h.spaces.map Space.info

variable (hany : ∀ fault, any fault)
include hany

lemma recordStart_infos (i addr : ℕ) :
    Leads any (onSpace i (·.recordStart addr)) h fun _ h' => h'.infos = h.infos := by
  unfold onSpace
  rw [leads_bind, leads_get, leads_bind]
  refine leads_check.2 ⟨fun s hs => ?_, fun fault _ => hany fault⟩
  rw [leads_bind]
  refine leads_check.2 ⟨fun s' hs' => ?_, fun fault _ => hany fault⟩
  have hspace : h.spaces[i]? = some s := by
    unfold Heap.space at hs
    split at hs
    case h_1 heq =>
      cases hs
      exact heq
    case h_2 => cases hs
  obtain ⟨hlt, heq⟩ := List.getElem?_eq_some_iff.1 hspace
  rw [leads_set, infos, setSpace, List.map_set, Space.info_recordStart hs', ← List.map_set, ← heq,
    List.set_getElem_self, infos]

variable [ObjectModel μ]

lemma recordFillers_infos {tries stop : ℕ} :
    Leads any (recordFillers i stop tries addr) h fun _ h' => h'.infos = h.infos := by
  induction tries generalizing h addr with
  | zero => rfl
  | succ tries ih =>
    rw [recordFillers]
    split
    · rw [leads_bind]
      refine (recordStart_infos hany i addr).mono fun _ h' heq => ?_
      rw [leads_bind, leads_get]
      exact ih.mono fun _ h'' heq' => heq'.trans heq
    · rfl

/-- Filling a gap records starts. -/
lemma fillGap_infos (i : ℕ) (gap : Run) :
    Leads any (fillGap i gap) h fun _ h' => h'.infos = h.infos := by
  rw [fillGap, leads_bind, onImage, leads_bind, leads_get, leads_bind]
  refine leads_check.2 ⟨fun image _ => ?_, fun fault _ => hany fault⟩
  rw [leads_set]
  exact (recordFillers_infos hany).mono fun _ h' heq => heq

end Heap

/-- The upkeep `K`, by which the spaces are those in `infos` apart from their start tables. -/
def Upkeep.framed {μ : Type} [ObjectModel μ] (K : Upkeep μ p) (hp : p.Valid) (infos : List Space) :
    Upkeep μ p where
  may := K.may
  Holds g h := K.Holds g h ∧ h.infos = infos
  serves hh := K.serves hh.1
  withTable hh hserves := ⟨K.withTable hh.1 hserves, hh.2⟩
  withLog hh := ⟨K.withLog hh.1, hh.2⟩
  widen hh hmore hplaceless hgone := ⟨K.widen hh.1 hmore hplaceless hgone, hh.2⟩
  copyWords {g h f s d n filled} hh hsource hdestination hpos hlive hforward hregion hempty hsafe
    hfilled := by
    have hframe : Heap.Leads (fun _ => True) (Heap.copyWords n f) h fun _ h' =>
        h'.infos = h.infos := by
      unfold Heap.copyWords
      split <;> rfl
    refine ((K.copyWords hh.1 hsource hdestination hpos hlive hforward hregion hempty hsafe
      hfilled).and hframe).mono fun f' h' => ?_
    rintro ⟨⟨hholds, hrest⟩, hinfos⟩
    exact ⟨⟨hholds, hinfos.trans hh.2⟩, hrest⟩
  recordStart {g h i x z} hh hz hhas hstart := by
    refine ((K.recordStart hh.1 hz hhas hstart).and
      (Heap.recordStart_infos (fun _ => trivial) i _)).mono fun _ h' => ?_
    rintro ⟨⟨hholds, htable⟩, hinfos⟩
    exact ⟨⟨hholds, hinfos.trans hh.2⟩, htable⟩
  updateObject {g h o} hh ho hnot harrived := by
    have hframe : Heap.Leads
        (fun _ => True) (Heap.updateContents (p.covered.addr (p.forward o.start))) h fun _ h' =>
      Heap.Redirected p.objs h h' :=
        Heap.updateContents_leads hp (fun _ => trivial) (K.serves hh.1) _
    refine ((K.updateObject hh.1 ho hnot harrived).and hframe).mono fun _ h' => ?_
    rintro ⟨⟨hholds, hrefilled⟩, hredirected⟩
    exact ⟨⟨hholds, (congrArg (List.map Space.info) hredirected.spaces).trans hh.2⟩, hrefilled⟩

lemma Upkeep.ClosesHoles.framed {μ : Type} [ObjectModel μ] {K : Upkeep μ p} (hK : K.ClosesHoles)
    (hp : p.Valid) (infos : List Space) : (K.framed hp infos).ClosesHoles where
  closeHole {g h i z o} hh hz hole := by
    refine ((hK.closeHole hh.1 hz hole).and (Heap.fillGap_infos (fun _ => trivial) i _)).mono
      fun _ h' => ?_
    rintro ⟨⟨hholds, htable⟩, hinfos⟩
    exact ⟨⟨hholds, hinfos.trans hh.2⟩, htable⟩

end MarkCompact
