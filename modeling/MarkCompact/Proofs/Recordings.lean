import MarkCompact.Compaction
import MarkCompact.Proofs.Observations

/-!
# Recording what is copied

From the words of memory alone one cannot tell in which order they were read.  A `Recording` is an
image of memory together with what has been copied in it.  It answers as the image does, so an
action on recordings does what it does on images: `Heap.Shadows act act'` says so of two actions,
and each way to build an action has a rule for it.

Main statements: `fillRegion_shadows` and `updateContents_quiet` (redirecting references copies
nothing).
-/

namespace MarkCompact

/-- Some words have been copied. -/
structure Copy where
  source : ℕ
  destination : ℕ
  words : ℕ

/-- An image of memory, and what has been copied in it, last first. -/
structure Recording (μ : Type) where
  image : μ
  copies : List Copy := []

namespace Recording

instance {μ : Type} [ObjectModel μ] : ObjectModel (Recording μ) where
  Slot := ObjectModel.Slot μ
  objectWords r := ObjectModel.objectWords r.image
  slots r := ObjectModel.slots r.image
  metadataSlot r := ObjectModel.metadataSlot r.image
  read r := ObjectModel.read r.image
  write r slot cell := { r with image := ObjectModel.write r.image slot cell }
  fillDead r addr words := do
    let image ← ObjectModel.fillDead r.image addr words
    pure { r with image }
  copyWords r source destination words :=
    ⟨ObjectModel.copyWords r.image source destination words,
      ⟨source, destination, words⟩ :: r.copies⟩
  minimumWords r := ObjectModel.minimumWords r.image

end Recording

namespace Heap

variable {μ α β : Type}

/-- The heap, and what will be copied in it. -/
def recording (h : Heap μ) : Heap (Recording μ) :=
  { h with image := ⟨h.image, []⟩, updates := h.updates.map fun u => (u.1, ⟨u.2, []⟩) }

/-- The heap without what was copied in it. -/
def played (h : Heap (Recording μ)) : Heap μ :=
  { h with image := h.image.image, updates := h.updates.map fun u => (u.1, u.2.image) }

@[simp] lemma played_recording (h : Heap μ) : h.recording.played = h := by
  simp [recording, played, Function.comp_def]

/-- On recordings the first action does what the second one does on images. -/
def Shadows (act : HeapAction (Recording μ) α) (act' : HeapAction μ α) : Prop :=
  ∀ h, act' h.played = (act h).map fun out => (out.1, out.2.played)

section

variable {act : HeapAction (Recording μ) α} {act' : HeapAction μ α}

lemma Shadows.bind {next : α → HeapAction (Recording μ) β} {next' : α → HeapAction μ β}
    (hact : Shadows act act') (hnext : ∀ a, Shadows (next a) (next' a)) :
    Shadows (act >>= next) (act' >>= next') := by
  intro h
  simp only [Bind.bind, StateT.bind, Except.bind, hact h]
  cases act h with
  | error fault => rfl
  | ok out => exact hnext out.1 out.2

lemma Shadows.ite {act₁ : HeapAction (Recording μ) α} {act₁' : HeapAction μ α} {c : Prop}
    [Decidable c] (hact : Shadows act act')
    (hact₁ : Shadows act₁ act₁') :
    Shadows (if c then act else act₁) (if c then act' else act₁') := by
  split
  · exact hact
  · exact hact₁

lemma shadows_pure (a : α) : Shadows (pure a : HeapAction (Recording μ) α) (pure a) :=
  fun _ => rfl

lemma shadows_get {next : Heap (Recording μ) → HeapAction (Recording μ) β}
    {next' : Heap μ → HeapAction μ β} (hnext : ∀ h, Shadows (next h) (next' h.played)) :
    Shadows (get >>= next) (get >>= next') :=
  fun h => hnext h h

lemma shadows_set {h : Heap (Recording μ)} {h' : Heap μ} (heq : h.played = h') :
    Shadows (set h : HeapAction (Recording μ) PUnit) (set h') := by
  subst heq
  exact fun _ => rfl

lemma shadows_modify {f : Heap (Recording μ) → Heap (Recording μ)} {f' : Heap μ → Heap μ}
    (hf : ∀ h, (f h).played = f' h.played) :
    Shadows (modify f : HeapAction (Recording μ) PUnit) (modify f') :=
  fun h => congrArg (fun h' => Except.ok (PUnit.unit, h')) (hf h).symm

lemma shadows_check (result : Except Fault α) :
    Shadows (check result : HeapAction (Recording μ) α) (check result) := by
  intro h
  cases result <;> rfl

/-- What stands behind a guard. -/
lemma Shadows.guard {next : Unit → HeapAction (Recording μ) α} {next' : Unit → HeapAction μ α}
    {c : Prop} [Decidable c] {fault : Fault} (hnext : Shadows (next ()) (next' ())) : Shadows
      (if c then do
        let u ← Heap.check (throw fault)
        next u
      else next ()) (if c then do
        let u ← Heap.check (throw fault)
        next' u
      else next' ()) :=
  .ite (.bind (shadows_check _) fun _ => hnext) hnext

/-- What the action on images leads to, the one on recordings leads to. -/
lemma Shadows.leads {may : Fault → Prop} {h : Heap (Recording μ)} {post : α → Heap μ → Prop}
    (hact : Shadows act act') (hlead : Leads may act' h.played post) :
    Leads may act h fun a h' => post a h'.played := by
  unfold Leads at hlead ⊢
  rw [hact h] at hlead
  cases heq : act h with
  | error fault =>
    rw [heq] at hlead
    exact hlead
  | ok out =>
    rw [heq] at hlead
    exact hlead

end

/-! ## Redirecting references -/

lemma onTable_shadows (f : RegionTable → Except Fault RegionTable) :
    Shadows (onTable f : HeapAction (Recording μ) Unit) (onTable f) :=
  shadows_get fun _ => .bind (shadows_check _) fun _ => shadows_set rfl

lemma onSpace_shadows (i : ℕ) (f : Space → Except Fault Space) :
    Shadows (onSpace i f : HeapAction (Recording μ) Unit) (onSpace i f) :=
  shadows_get fun _ => .bind (shadows_check _) fun _ => .bind (shadows_check _) fun _ =>
    shadows_set rfl

lemma forward_shadows (addr : ℕ) :
    Shadows (forward addr : HeapAction (Recording μ) ℕ) (forward addr) :=
  shadows_get fun _ => .bind (shadows_check _) fun _ => .bind (shadows_set rfl) fun _ =>
    shadows_pure _

lemma forwardMetadata_shadows (addr : ℕ) :
    Shadows (forwardMetadata addr : HeapAction (Recording μ) ℕ) (forwardMetadata addr) := by
  refine shadows_get fun h => ?_
  have hspace : (h.played.spaceOf? addr).bind (h.played.spaces[·]?)
      = (h.spaceOf? addr).bind (h.spaces[·]?) := rfl
  rw [hspace]
  cases (h.spaceOf? addr).bind (h.spaces[·]?) with
  | none => exact shadows_pure addr
  | some s => exact .ite (forward_shadows addr) (shadows_pure addr)

variable [ObjectModel μ]

omit [ObjectModel μ] in
lemma adjustCell_shadows (traversal : Traversal) (cell : Cell) :
    Shadows (adjustCell traversal cell : HeapAction (Recording μ) (Adjusted × Cell))
      (adjustCell traversal cell) := by
  refine .bind (shadows_check _) fun addr => shadows_get fun h => .ite (shadows_pure _) ?_
  extract_lets next next'
  have hnext : ∀ survives, Shadows (next survives) (next' survives) := fun survives => by
    refine .ite (.bind (forward_shadows _) fun target => .ite (shadows_pure _) ?_) ?_
    · exact .bind (shadows_check _) fun _ => shadows_pure _
    · exact .bind (shadows_check _) fun _ => shadows_pure _
  exact .ite (.bind (shadows_check _) hnext) (.bind (shadows_pure _) hnext)

lemma adjustSlots_shadows (slots : List (ObjectModel.Slot μ)) :
    Shadows (μ := μ) (adjustSlots (μ := Recording μ) slots) (adjustSlots slots) := by
  induction slots with
  | nil => exact shadows_pure _
  | cons slot rest ih =>
    refine shadows_get fun h => .bind (adjustCell_shadows _ _) fun out => .bind ?_ fun _ => ih
    exact shadows_get fun _ => shadows_set rfl

lemma updateContents_shadows (addr : ℕ) :
    Shadows (updateContents addr : HeapAction (Recording μ) Unit) (updateContents addr) := by
  refine .bind (shadows_modify fun _ => rfl) fun _ => shadows_get fun h =>
    .bind (shadows_check _) fun slots =>
    .bind (adjustSlots_shadows (μ := μ) slots) fun _ => shadows_get fun h => ?_
  have hslot : ObjectModel.metadataSlot h.image addr
      = ObjectModel.metadataSlot h.played.image addr := rfl
  rw [hslot]
  cases ObjectModel.metadataSlot h.played.image addr with
  | none => exact shadows_pure _
  | some slot =>
    refine .bind (shadows_check _) fun metadata => .ite ?_ (shadows_pure _)
    exact .bind (forwardMetadata_shadows _) fun target => .bind (shadows_check _) fun cell =>
      shadows_get fun _ =>
      shadows_set rfl

/-! ## Actions that copy nothing -/

/-- The action copies nothing. -/
def Quiet (act : HeapAction (Recording μ) α) : Prop :=
  ∀ h, Leads (fun _ => True) act h fun _ h' => h'.image.copies = h.image.copies

/-- Writing a slot copies nothing, so redirecting references does not. -/
theorem updateContents_quiet (addr : ℕ) :
    Quiet (updateContents addr : HeapAction (Recording μ) Unit) :=
  updateContents_steady (f := Recording.copies) (fun _ _ _ => rfl) addr

/-! ## Copying -/

lemma copyWords_shadows (words : ℕ) (f : Filling) :
    Shadows (copyWords words f : HeapAction (Recording μ) Filling) (copyWords words f) :=
  .ite (shadows_pure _) (.bind (shadows_get fun _ => shadows_set rfl) fun _ => shadows_pure _)

lemma copyPartial_shadows (f : Filling) : Shadows (copyPartial f : HeapAction (Recording μ) Filling)
    (copyPartial f) := by
  refine shadows_get fun h => .bind (shadows_check _) fun last => ?_
  extract_lets next next'
  have hnext : ∀ words, Shadows (next words) (next' words) := fun words => copyWords_shadows words f
  exact .ite (.bind (shadows_check _) fun _ => .bind (shadows_pure _) hnext)
    (.bind (shadows_pure _) hnext)

lemma placeObject_shadows (o : Run) (f : Filling) :
    Shadows (placeObject o f : HeapAction (Recording μ) (WalkStatus × Filling))
      (placeObject o f) := by
  refine .bind (forward_shadows _) fun target => .guard (.ite (shadows_pure _) ?_)
  exact .bind (onSpace_shadows _ _) fun _ => .bind (copyWords_shadows _ _) fun moved =>
    .bind (updateContents_shadows _) fun _ => shadows_pure _

section

omit [ObjectModel μ]

variable {visit : Run → StateT Filling (HeapAction (Recording μ)) WalkStatus}
  {visit' : Run → StateT Filling (HeapAction μ) WalkStatus}

lemma visitRuns_shadows (hvisit : ∀ run f, Shadows (visit run f) (visit' run f))
    (whole : WalkOutcome) (runs : List Run) (f : Filling) :
    Shadows (visitRuns (refuseComplete visit) whole runs f)
      (visitRuns (refuseComplete visit') whole runs f) := by
  induction runs generalizing f with
  | nil => exact shadows_pure _
  | cons run rest ih =>
    rw [visitRuns_refuse_cons, visitRuns_refuse_cons]
    refine .bind (hvisit run f) fun out => ?_
    obtain ⟨_ | _ | _ | _, f'⟩ := out
    case incomplete => exact ih f'
    case complete => exact fun _ => rfl
    all_goals exact shadows_pure _

/-- A walk over the same bitmap, and what follows it. -/
lemma iterate_shadows (hvisit : ∀ run f, Shadows (visit run f) (visit' run f)) (m : MarkBitmap)
    (addr stop : ℕ) (f : Filling) {next : WalkOutcome × Filling → HeapAction (Recording μ) α}
    {next' : WalkOutcome × Filling → HeapAction μ α}
    (hnext : ∀ out, Shadows (next out) (next' out)) :
    Shadows (do let walk ← check (m.iterate visit addr stop); let out ← walk f; next out)
      (do let walk ← check (m.iterate visit' addr stop); let out ← walk f; next' out) := by
  rw [MarkBitmap.iterate, MarkBitmap.iterate]
  cases m.objectsIn addr stop with
  | error fault => exact fun _ => rfl
  | ok walk => exact .bind (visitRuns_shadows hvisit _ _ _) hnext

end

lemma placeStraddler_shadows (spaceTop stop : ℕ) (f : Filling) :
    Shadows (placeStraddler spaceTop stop f : HeapAction (Recording μ) (WalkStatus × Filling))
      (placeStraddler spaceTop stop f) := by
  unfold placeStraddler
  dsimp only
  refine .guard (shadows_get fun h => .bind (shadows_check _)
    fun last => .ite ?_ (.guard (shadows_pure _)))
  exact .bind (shadows_check _) fun inner => .bind (placeObject_shadows _ _) fun out =>
    .guard (shadows_pure _)

lemma placeUpTo_shadows (spaceTop stop : ℕ) (f : Filling) :
    Shadows (placeUpTo spaceTop stop f : HeapAction (Recording μ) (WalkStatus × Filling))
      (placeUpTo spaceTop stop f) :=
  shadows_get fun h => iterate_shadows placeObject_shadows h.bitmap f.source stop f fun _ =>
    .ite (placeStraddler_shadows _ _ _) (shadows_pure _)

/-! ## Filling a region -/

omit [ObjectModel μ] in
lemma releaseRegions_shadows (claimEnd count r : ℕ) (claimed : List ℕ) :
    Shadows (releaseRegions claimEnd count r claimed : HeapAction (Recording μ) (List ℕ))
      (releaseRegions claimEnd count r claimed) := by
  induction count generalizing r claimed with
  | zero => exact shadows_pure _
  | succ count ih =>
    refine shadows_get fun h => .bind (shadows_check _) fun a =>
      .guard (.bind (shadows_check _) fun b => ?_)
    refine .ite (.bind (shadows_check _) fun c => ?_) ?_
    · exact .bind (shadows_modify fun _ => rfl) fun _ => ih _ _
    · exact .bind (shadows_modify fun _ => rfl) fun _ => ih _ _

omit [ObjectModel μ] in
lemma release_shadows (claimEnd beg stop : ℕ) (claimed : List ℕ) :
    Shadows (release claimEnd beg stop claimed : HeapAction (Recording μ) (List ℕ))
      (release claimEnd beg stop claimed) :=
  shadows_get fun _ => .bind (shadows_check _) fun _ => releaseRegions_shadows _ _ _ _

omit [ObjectModel μ] in
lemma finishRegion_shadows (plan : FillPlan) (deferred : ℕ) :
    Shadows (finishRegion plan deferred : HeapAction (Recording μ) Unit)
      (finishRegion plan deferred) :=
  onTable_shadows _

omit [ObjectModel μ] in
/-- The last source regions are released, and the region is completed. -/
lemma releaseAll_shadows (plan : FillPlan) (r stop deferred copied : ℕ) (claimed : List ℕ) :
    Shadows (do
      let claimed ← release plan.claimEnd r stop claimed
      finishRegion plan deferred
      pure (claimed, copied) : HeapAction (Recording μ) (List ℕ × ℕ)) (do
      let claimed ← release plan.claimEnd r stop claimed
      finishRegion plan deferred
      pure (claimed, copied)) :=
  .bind (release_shadows _ _ _ _) fun _ => .bind (finishRegion_shadows _ _) fun _ => shadows_pure _

/-- The next source region, and what is filled from it. -/
lemma fillNext_shadows (plan : FillPlan) (tries stop r : ℕ) (claimed : List ℕ) (f : Filling)
    (hfill : ∀ r claimed f, Shadows (fillFrom plan tries r claimed f : HeapAction (Recording μ)
      (List ℕ × ℕ)) (fillFrom plan tries r claimed f)) :
    Shadows (do
      let claimed ← release plan.claimEnd r stop claimed
      let (r, f) ← check ((← get).nextSource plan.spaceTop stop f)
      fillFrom plan tries r claimed f : HeapAction (Recording μ) (List ℕ × ℕ)) (do
      let claimed ← release plan.claimEnd r stop claimed
      let (r, f) ← check ((← get).nextSource plan.spaceTop stop f)
      fillFrom plan tries r claimed f) :=
  .bind (release_shadows _ _ _ _) fun _ => shadows_get fun _ =>
    .bind (shadows_check _) fun _ => hfill _ _ _

lemma fillFrom_shadows (plan : FillPlan) (tries r : ℕ) (claimed : List ℕ) (f : Filling) :
    Shadows (fillFrom plan tries r claimed f : HeapAction (Recording μ) (List ℕ × ℕ))
      (fillFrom plan tries r claimed f) := by
  induction tries generalizing r claimed f with
  | zero => exact shadows_pure _
  | succ tries ih =>
    refine shadows_get fun h => .bind (shadows_check _) fun stop =>
      .bind (placeUpTo_shadows _ _ _) fun out => ?_
    obtain ⟨_ | _ | _ | _, f'⟩ := out
    case wouldOverflow =>
      exact .bind (copyWords_shadows _ _) fun _ => releaseAll_shadows _ _ _ _ _ _
    case full => exact releaseAll_shadows _ _ _ _ _ _
    all_goals exact fillNext_shadows plan tries _ r claimed f' ih

lemma fillFromInside_shadows (plan : FillPlan) (r : ℕ) (f : Filling) :
    Shadows (fillFromInside plan r f : HeapAction (Recording μ) (List ℕ × ℕ))
      (fillFromInside plan r f) := by
  refine .bind (copyPartial_shadows f) fun f' => .ite (releaseAll_shadows _ _ _ _ _ _) ?_
  refine shadows_get fun h => .bind (shadows_check _) fun stop =>
    .bind (shadows_check _) fun first =>
    .ite (fillFrom_shadows _ _ _ _ _) ?_
  exact .bind (release_shadows _ _ _ _) fun _ => shadows_get fun _ =>
    .bind (shadows_check _) fun _ =>
    fillFrom_shadows _ _ _ _ _

/-- A fill does on recordings what it does on images. -/
theorem fillRegion_shadows (region : ℕ) :
    Shadows (fillRegion region : HeapAction (Recording μ) (List ℕ × ℕ)) (fillRegion region) := by
  refine shadows_get fun h => .bind (shadows_check _) fun a => ?_
  have hspace : h.played.spaceOf? (h.played.table.regionStart region)
      = h.spaceOf? (h.table.regionStart region) := rfl
  dsimp only
  rw [hspace]
  cases h.spaceOf? (h.table.regionStart region) with
  | none => exact shadows_check _
  | some i =>
    refine .bind (shadows_check _) fun s => .guard (.bind (shadows_check _) fun room =>
      .bind (shadows_check _) fun claimEnd => ?_)
    exact .bind (shadows_check _) fun source => .bind (shadows_check _) fun marked =>
      .ite (fillFrom_shadows _ _ _ _ _) (fillFromInside_shadows _ _ _)

end Heap

end MarkCompact
