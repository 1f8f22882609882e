import MarkCompact.Proofs.AnyPrefixes
import MarkCompact.Proofs.LiveWords

/-!
# The shortcut for metadata

Where metadata goes is read off the end of a dense prefix before the region table is asked.  The
table says the same, because planning has made every region of the prefix look full and stay where
it is, with partial objects and the filler at the end.

Main statement: `Heap.forwardMetadata_eq_forward`.
-/

namespace MarkCompact

namespace Heap

variable {μ : Type} {h : Heap μ} {p : Plan} {a : ℕ}

/-- The shortcut forwards live words to where they go, and leaves what lies outside of the
spaces. -/
structure ShortcutAgrees (h : Heap μ) : Prop where
  live : ∀ w < h.covered.words, h.isLiveWord (h.covered.addr w) = .ok true → ∃ target,
    Runs (forward (h.covered.addr w)) h (fun x _ => x = target)
      ∧ Runs (forwardMetadata (h.covered.addr w)) h fun x _ => x = target
  outside : ∀ a, h.isInSpace a = false → Runs (forwardMetadata a) h fun x h' => x = a ∧ h' = h

/-- Metadata that lies outside of the spaces stays. -/
lemma forwardMetadata_outside (ha : h.isInSpace a = false) :
    Runs (forwardMetadata a) h fun x h' => x = a ∧ h' = h := by
  have hnone : h.spaceOf? a = none := by simpa [isInSpace] using ha
  rw [forwardMetadata, runs_bind, runs_get, hnone, Option.bind_none]
  exact runs_pure.2 ⟨rfl, rfl⟩

/-- Tables that hold a plan agree with the shortcut. -/
lemma shortcutAgrees_of_serves (hs : p.Serves h) (hp : p.Valid) : h.ShortcutAgrees where
  live w hw hlive := by
    rw [hs.covered] at hw hlive ⊢
    rw [isLiveWord_eq hs hp hw, Except.ok.injEq, decide_eq_true_iff] at hlive
    refine ⟨p.covered.addr (p.forward w), (forward_runs hp hs hlive).mono fun _ _ => And.left, ?_⟩
    refine (forwardMetadata_runs hp hs fun _ => ⟨w, rfl, hlive⟩).mono fun x _ hx => ?_
    rw [hx.1, Plan.redirect_addr (hp.inSpace hlive)]
  outside _ := forwardMetadata_outside

variable [ObjectModel μ] {objs : List Span} {zones : List Zone} {minimum : ℕ}
  {rule : ℕ → PrefixRule}

/-- Around whatever dense prefixes the spaces have been planned, the shortcut agrees with the
tables. -/
theorem forwardMetadata_eq_forward (hm : h.Unplanned objs zones) (hcloses : ClosesGaps μ minimum)
    (hrule : ∀ i s, h.spaces[i]? = some s → (rule i).FitsIn h.table s) :
    Leads (fun _ => ∃ z ∈ zones, z.Misfit h.table.geometry.regionWords minimum objs)
      (planSpacesBy rule) h fun _ h' =>
      h'.ShortcutAgrees := by
  refine (hm.planSpacesBy_unbegun hcloses hrule).mono fun _ h' => ?_
  rintro ⟨p, _, _, hp, hu⟩
  exact shortcutAgrees_of_serves hu.serves hp

/-- A heap in which two objects are marked is planned around a boundary between them, and a filler
ends the prefix. -/
theorem forwardMetadata_eq_forward_fourRegions : ∃ m, (do
      let (_, m) ← fourRegions.bitmap.mark (fourRegions.covered.addr 1) 3
      let (_, m) ← m.mark (fourRegions.covered.addr 10) 2
      pure m) = .ok m
    ∧ ({ fourRegions with bitmap := m } : Heap MemoryImage).Unplanned [⟨10, 2⟩, ⟨1, 3⟩]
      [⟨0, 0, 4, 14⟩]
    ∧ (∀ (i : ℕ) (s : Space), fourRegions.spaces[i]? = some s →
      (PrefixRule.endingAt 128).FitsIn fourRegions.table s)
    ∧ Runs (planSpacesBy fun _ => .endingAt 128) { fourRegions with bitmap := m } fun _ h' =>
      h'.ShortcutAgrees := by
  obtain ⟨m, heq, hmarked⟩ := fourRegions_marked
  have hleads : Leads _ (planSpacesBy fun _ => .endingAt 128) _ _ :=
    forwardMetadata_eq_forward hmarked.unplanned MemoryImage.closesGaps fourRegions_fitsIn
  exact ⟨m, heq, hmarked.unplanned, fourRegions_fitsIn,
    hleads.runs fun _ => (fillersFit_one _ _ _).not_misfit⟩

end Heap

end MarkCompact
