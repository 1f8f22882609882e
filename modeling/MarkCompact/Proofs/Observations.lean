import MarkCompact.Compaction
import MarkCompact.PrefixTask
import MarkCompact.Proofs.Actions

/-!
# What actions leave as it is

An action is steady for `f` if it leaves what `f` observes of the image as it was.  Forwarding and
recording a start do not touch the image at all, and redirecting references only writes slots, so it
is steady for whatever writing a slot does not change.

Main statements: `updateContents_steady` and `updateInPlace_steady`.
-/

namespace MarkCompact.Heap

variable {μ α β γ : Type} {f : μ → γ}

/-- Where the action does not fail, `f` observes the same of the image before and after it. -/
def Steady (f : μ → γ) (act : HeapAction μ α) : Prop :=
  ∀ h, Leads (fun _ => True) act h fun _ h' => f h'.image = f h.image

lemma Steady.bind {act : HeapAction μ α} {next : α → HeapAction μ β} (hact : Steady f act)
    (hnext : ∀ a, Steady f (next a)) : Steady f (act >>= next) :=
  fun h => leads_bind.2 ((hact h).mono fun a h₁ heq => (hnext a h₁).mono
    fun _ _ heq' => heq'.trans heq)

lemma Steady.ite {act act' : HeapAction μ α} {c : Prop} [Decidable c] (hact : Steady f act)
    (hact' : Steady f act') :
    Steady f (if c then act else act') := by
  split
  · exact hact
  · exact hact'

lemma steady_pure (a : α) : Steady f (pure a : HeapAction μ α) :=
  fun _ => leads_pure.2 rfl

lemma steady_check (result : Except Fault α) : Steady f (check result : HeapAction μ α) :=
  fun _ => leads_check.2 ⟨fun _ _ => rfl, fun _ _ => trivial⟩

/-- What an action makes of the heap that it is run on. -/
lemma steady_get {next : Heap μ → HeapAction μ β}
    (hnext : ∀ h, Leads (fun _ => True) (next h) h fun _ h' => f h'.image = f h.image) :
    Steady f (get >>= next) :=
  fun h => leads_bind.2 (leads_get.2 (hnext h))

lemma onSpace_steady (i : ℕ) (g : Space → Except Fault Space) :
    Steady f (onSpace i g : HeapAction μ Unit) := by
  refine steady_get fun h => ?_
  simp only [leads_bind, leads_check, leads_set]
  exact ⟨fun s _ => ⟨fun s' _ => rfl, fun _ _ => trivial⟩, fun _ _ => trivial⟩

lemma onTable_steady (g : RegionTable → Except Fault RegionTable) :
    Steady f (onTable g : HeapAction μ Unit) := by
  refine steady_get fun h => ?_
  simp only [leads_bind, leads_check, leads_set]
  exact ⟨fun _ _ => trivial, fun _ _ => trivial⟩

lemma claimPrefix_steady (count r : ℕ) : Steady f (claimPrefix count r : HeapAction μ Unit) := by
  induction count generalizing r with
  | zero => exact steady_pure ()
  | succ count ih =>
    refine steady_get fun h => Steady.bind (steady_check _) (fun a => ?_) h
    obtain ⟨claimed, a'⟩ := a.claim
    cases claimed with
    | true => exact .bind (fun _ => leads_modify.2 rfl) fun _ => ih (r + 1)
    | false => exact .bind (steady_check _) fun _ => ih (r + 1)

lemma completePrefix_steady (count r : ℕ) :
    Steady f (completePrefix count r : HeapAction μ Unit) := by
  induction count generalizing r with
  | zero => exact steady_pure ()
  | succ count ih => exact .bind (onTable_steady _) fun _ => ih (r + 1)

/-! ## Redirecting references -/

lemma forward_steady (addr : ℕ) : Steady f (forward addr : HeapAction μ ℕ) := by
  refine steady_get fun h => ?_
  simp only [leads_bind, leads_check, leads_set, leads_pure]
  exact ⟨fun _ _ => trivial, fun _ _ => trivial⟩

lemma forwardMetadata_steady (addr : ℕ) : Steady f (forwardMetadata addr : HeapAction μ ℕ) := by
  refine steady_get fun h => ?_
  cases (h.spaceOf? addr).bind (h.spaces[·]?) with
  | none => exact steady_pure addr h
  | some s => exact Steady.ite (forward_steady addr) (steady_pure addr) h

lemma adjustCell_steady (traversal : Traversal) (cell : Cell) :
    Steady f (adjustCell traversal cell : HeapAction μ (Adjusted × Cell)) := by
  refine .bind (steady_check _) fun addr => steady_get fun h => Steady.ite (steady_pure _) ?_ h
  extract_lets next
  have hnext : ∀ survives, Steady f (next survives) := fun survives => by
    refine .ite (.bind (forward_steady _) fun target => .ite (steady_pure _) ?_) ?_
    · exact .bind (steady_check _) fun _ => steady_pure _
    · exact .bind (steady_check _) fun _ => steady_pure _
  exact .ite (.bind (steady_check _) hnext) (.bind (steady_pure _) hnext)

section

variable [ObjectModel μ]
  (hwrite : ∀ (image : μ) slot cell, f (ObjectModel.write image slot cell) = f image)
include hwrite

lemma write_steady (slot : ObjectModel.Slot μ) (cell : Cell) :
    Steady f (onImage fun image : μ => pure (ObjectModel.write image slot cell)) :=
  steady_get fun h => leads_set.2 (hwrite h.image slot cell)

lemma adjustSlots_steady (slots : List (ObjectModel.Slot μ)) : Steady f (adjustSlots slots) := by
  induction slots with
  | nil => exact steady_pure _
  | cons slot rest ih =>
    refine steady_get fun h => Steady.bind (adjustCell_steady _ _) (fun out => ?_) h
    exact .bind (write_steady hwrite slot out.2) fun _ => ih

/-- Redirecting the references of an object. -/
theorem updateContents_steady (addr : ℕ) : Steady f (updateContents addr : HeapAction μ Unit) := by
  refine .bind (fun _ => leads_modify.2 rfl) fun _ => steady_get fun h =>
    Steady.bind (steady_check _) (fun slots =>
      .bind (adjustSlots_steady hwrite slots) fun _ => steady_get fun h => ?_) h
  cases ObjectModel.metadataSlot h.image addr with
  | none => exact steady_pure _ h
  | some slot =>
    refine Steady.bind (steady_check _) (fun metadata => .ite ?_ (steady_pure _)) h
    exact .bind (forwardMetadata_steady _) fun target =>
      .bind (steady_check _) fun cell => write_steady hwrite slot cell

/-- Updating an object that stays. -/
theorem updateInPlace_steady (i addr : ℕ) : Steady f (updateInPlace i addr : HeapAction μ Unit) :=
  .bind (onSpace_steady i _) fun _ => updateContents_steady hwrite addr

end

/-! ## Fillers and copies -/

variable [ObjectModel μ]

lemma recordFillers_steady (i stop tries addr : ℕ) :
    Steady f (recordFillers i stop tries addr : HeapAction μ Unit) := by
  induction tries generalizing addr with
  | zero => exact steady_pure ()
  | succ tries ih =>
    exact .ite (.bind (onSpace_steady i _) fun _ => steady_get fun h => ih _ h) (steady_pure ())

/-- Copying is steady for what copied words do not change. -/
lemma copyWords_steady
    (hcopy : ∀ (image : μ) a b n, f (ObjectModel.copyWords image a b n) = f image) (n : ℕ)
    (g : Filling) : Steady f (copyWords n g : HeapAction μ Filling) :=
  .ite (steady_pure _) (.bind (steady_get fun h => leads_set.2 (hcopy h.image ..))
    fun _ => steady_pure _)

end MarkCompact.Heap
