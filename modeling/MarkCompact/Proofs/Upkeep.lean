import MarkCompact.Proofs.Answers
import MarkCompact.Proofs.Underway

/-!
# What filling regions needs to know of memory

Filling regions copies words, records starts, updates objects and fills holes.  An `Upkeep` is an
invariant that all of these keep, together with the faults that they may end with; whatever filling
does to the tables follows from that.

There are two: `Plan.memoryUpkeep`, by which nothing fails in a memory of self-describing objects
and every live word stays intact, and `Plan.hostUpkeep`, by which the tables keep the plan whatever
the host does, if it does not fault.  Both keep the invariant when a hole of a dense prefix is
filled as well (`Upkeep.ClosesHoles`), which no fill of a region does.
-/

namespace MarkCompact

variable {p : Plan} {objs : List Span} {o : Span} {z : Zone} {a d i n r s x : ℕ}

/-- An invariant of copying words, recording starts and updating objects. -/
structure Upkeep (μ : Type) [ObjectModel μ] (p : Plan) where
  /-- The faults that may occur. -/
  may : Fault → Prop
  Holds : Progress → Heap μ → Prop
  serves : ∀ {g h}, Holds g h → p.Serves h
  withTable : ∀ {g h t}, Holds g h → p.Serves { h with table := t } → Holds g { h with table := t }
  withLog : ∀ {g h log}, Holds g h → Holds g { h with log }
  /-- Words to which no live word goes may count as filled, if what was live there has gone. -/
  widen : ∀ {g h} {filled : ℕ → Prop}, Holds g h → (∀ x, g.filled x → filled x) →
    (∀ x, filled x → ¬g.filled x → ∀ w, Live p.objs w → p.forward w ≠ x) →
    (∀ w, Live p.objs w → filled w → ¬g.filled w → filled (p.forward w)) → Holds { g with filled } h
  copyWords : ∀ {g h} {f : Filling} {s d n : ℕ} {filled : ℕ → Prop}, Holds g h →
    f.source = p.covered.addr s →
    f.destination = p.covered.addr d → 0 < n → (∀ i, i < n → Live p.objs (s + i)) →
    (∀ i, i < n → p.forward (s + i) = d + i) →
    (∀ i, i < n → (d + i) / p.regionWords = d / p.regionWords) →
    (∀ x, d ≤ x → x / p.regionWords = d / p.regionWords → ¬g.filled x) →
    (∀ w, Live p.objs w → d ≤ w → w < d + n → g.filled (p.forward w) ∨ (s ≤ w ∧ w < s + n)) →
    (∀ x, filled x ↔ g.filled x ∨ (d ≤ x ∧ x < d + n)) →
    Heap.Leads may (Heap.copyWords n f) h fun f' h' => Holds { g with filled } h'
      ∧ h'.table = h.table
      ∧ f' = { f.advance n with copied := if s = d then f.copied else f.copied + n }
  recordStart : ∀ {g h} {i x : ℕ} {z : Zone}, Holds g h → p.zones[i]? = some z →
    z.Has p.regionWords x → p.FinalStart x →
    Heap.Leads may (Heap.onSpace i (·.recordStart (p.covered.addr x))) h fun _ h' =>
      Holds { g with noted := fun y => g.noted y ∨ y = x } h' ∧ h'.table = h.table
  updateObject : ∀ {g h} {o : Span}, Holds g h → o ∈ p.objs → o ∉ g.updated →
    (∀ k, k < o.words → p.location g.filled (o.start + k) = p.forward o.start + k) →
    Heap.Leads may (Heap.updateContents (p.covered.addr (p.forward o.start))) h fun _ h' =>
      Holds { g with updated := o :: g.updated } h' ∧ RegionTable.Refilled p.objs h.table h'.table

/-- Filling holes of dense prefixes keeps the invariant, too. -/
structure Upkeep.ClosesHoles {μ : Type} [ObjectModel μ] (K : Upkeep μ p) : Prop where
  closeHole : ∀ {g h} {i : ℕ} {z : Zone} {o : Span}, K.Holds g h → p.zones[i]? = some z →
    z.Hole p.regionWords p.objs o →
    Heap.Leads K.may (Heap.fillGap i (o.run p.covered)) h fun _ h' =>
      K.Holds { g with
        noted := fun y => g.noted y ∨ y = o.start
        closed := fun y => g.closed y ∨ y = o.start } h'
        ∧ h'.table = h.table

/-! ## Memory of self-describing objects -/

/-- In memory that holds readable objects nothing fails, and live words stay intact. -/
def Plan.memoryUpkeep (hp : p.FitsMemory) (hsound : p.Sound) : Upkeep MemoryImage p where
  may _ := False
  Holds := p.Underway
  serves hu := hu.serves
  withTable hu hserves := { hu with serves := hserves }
  withLog {_ _ log} hu := { hu with serves := hu.serves.withLog log }
  widen hu hmore hplaceless hgone := { hu with moved := hu.moved.widen hmore hplaceless hgone }
  copyWords hu hsource hdestination hpos hlive hforward hregion hempty hsafe hfilled :=
    (Heap.copyWords_runs hu hp.toValid hsource hdestination hpos hlive hforward
      (fun i hi => hempty _ (Nat.le_add_right _ _) (hregion i hi)) hsafe hfilled).leads
  recordStart hu hz hhas hstart :=
    (Heap.recordStart_runs hu hp.toValid hz hhas hstart).leads.mono fun _ _ hpost =>
      ⟨hpost.1, hpost.2.1⟩
  updateObject hu ho hnot harrived :=
    (Heap.updateObject_runs hu hp hsound ho hnot harrived).leads.mono fun _ _ hpost =>
      ⟨hpost.1, hpost.2.1⟩

lemma Plan.memoryUpkeep_closesHoles (hp : p.FitsMemory) (hsound : p.Sound) :
    (p.memoryUpkeep hp hsound).ClosesHoles where
  closeHole hu hz hole := (Heap.closeHole_runs hu hp hz hole).leads

/-! ## Any host -/

namespace Heap

variable {μ : Type} {h : Heap μ} {any : Fault → Prop}

/-- The heap `h'` differs from `h` in the image, in what has been updated and in recorded block
offsets. -/
structure Redirected (objs : List Span) (h h' : Heap μ) : Prop where
  covered : h'.covered = h.covered
  geometry : h'.geometry = h.geometry
  bitmap : h'.bitmap = h.bitmap
  spaces : h'.spaces = h.spaces
  refilled : RegionTable.Refilled objs h.table h'.table

lemma Redirected.refl (objs : List Span) (h : Heap μ) : Redirected objs h h :=
  ⟨rfl, rfl, rfl, rfl, .refl _ _⟩

lemma Redirected.trans {h' h'' : Heap μ} (hr : Redirected objs h h')
    (hr' : Redirected objs h' h'') :
    Redirected objs h h'' :=
  ⟨hr'.covered.trans hr.covered, hr'.geometry.trans hr.geometry, hr'.bitmap.trans hr.bitmap,
    hr'.spaces.trans hr.spaces, hr.refilled.trans hr'.refilled⟩

lemma Redirected.serves {h' : Heap μ} (hr : Redirected p.objs h h') (hs : p.Serves h) :
    p.Serves h' :=
  hs.advance hr.refilled.advances hr.bitmap hr.covered hr.geometry (hr.spaces ▸ hs.spaces)

variable (hp : p.Valid) (hany : ∀ fault, any fault)
include hp hany

/-- Forwarding any address of a space changes no more than block offsets, if it succeeds. -/
lemma forward_leads (hs : p.Serves h) (hin : p.InSpace a) :
    Leads any (forward a) h fun _ h' => Redirected p.objs h h' := by
  obtain ⟨z, hz, h1, h2⟩ := hin
  have hW := p.regionWords_pos
  have hlast := (hp.ordered z hz).last_le
  -- The region of the address belongs to the zone.
  have hword1 : z.first * p.regionWords ≤ p.wordOf a := by
    rw [Extent.addr_eq] at h1
    rw [Plan.wordOf, bytesPerWord]
    omega
  have hword2 : p.wordOf a < z.last * p.regionWords := by
    rw [Extent.addr_eq] at h1 h2
    rw [Plan.wordOf, bytesPerWord]
    omega
  have hregion : h.table.regionOf a = .ok (p.wordOf a / p.regionWords) := by
    have hsize := hs.loaded.laid.size_words
    have hlt := hs.loaded.laid.covered_lt
    rw [hs.loaded.covered] at hsize hlt
    rw [Extent.addr_eq] at h1 h2
    rw [RegionTable.regionOf, RegionTable.wordOffset, hs.loaded.covered,
      Extent.offset_eq_ok hlt (by omega) (by omega), ok_bind, hs.loaded.geometry]
    show Except.ok (p.wordOf a >>> _) = _
    rw [Geometry.shiftRight_regionLog]
    rfl
  have hlt : p.wordOf a / p.regionWords < z.last := div_lt_of_lt_mul hword2
  have hready := hs.loaded.ready z hz
  have hfirst := (Nat.le_div_iff_mul_le hW).2 hword1
  rw [forward]
  simp only [leads_bind, leads_get, leads_check]
  refine ⟨fun out heq => ?_, fun fault _ => hany fault⟩
  exact ⟨rfl, rfl, rfl, rfl, RegionTable.refilled_of_forward hs.loaded.laid hs.consistent.marks
    (by rw [hs.bitmap_covered, hs.loaded.covered]) hregion (hready.partial_eq _ hfirst hlt)
      (hready.valid _ hfirst hlt) heq⟩

lemma adjustCell_leads (hs : p.Serves h) (cell : Cell) :
    Leads any (adjustCell .heap cell) h fun _ h' => Redirected p.objs h h' := by
  rw [adjustCell]
  simp only [leads_bind, leads_get, leads_check]
  refine ⟨fun addr _ => ?_, fun fault _ => hany fault⟩
  by_cases hin : addr = 0 ∨ ¬h.isInSpace addr = true
  · rw [if_pos hin, leads_pure]
    exact .refl _ _
  · rw [if_neg hin]
    have hspace : p.InSpace addr := (hs.isInSpace_iff hp).1 (by simpa using (not_or.1 hin).2)
    rw [if_neg (by decide)]
    simp only [leads_bind, leads_pure, if_true]
    refine (forward_leads hp hany hs hspace).mono fun target h₁ hr => ?_
    split
    case isTrue => exact leads_pure.2 hr
    case isFalse =>
      simp only [leads_bind, leads_check]
      exact ⟨fun _ _ => leads_pure.2 hr, fun fault _ => hany fault⟩

variable [ObjectModel μ]

lemma adjustSlots_leads (hs : p.Serves h) (slots : List (ObjectModel.Slot μ)) :
    Leads any (adjustSlots slots) h fun _ h' => Redirected p.objs h h' := by
  induction slots generalizing h with
  | nil => exact leads_pure.2 (.refl _ _)
  | cons slot rest ih =>
    rw [adjustSlots]
    simp only [leads_bind, leads_get]
    refine (adjustCell_leads hp hany hs _).mono fun out h₁ hr => ?_
    simp only [onImage, leads_bind, leads_get, leads_set, show ∀ x : μ,
      (pure x : Except Fault μ) = .ok x from fun _ => rfl, leads_check_ok]
    have hr₁ : Redirected p.objs h { h₁ with image := ObjectModel.write h₁.image slot out.2 } :=
      ⟨hr.covered, hr.geometry, hr.bitmap, hr.spaces, hr.refilled⟩
    exact (ih (hr₁.serves hs)).mono fun _ h₂ hr₂ => hr₁.trans hr₂

omit [ObjectModel μ] in
lemma forwardMetadata_leads (hs : p.Serves h) (addr : ℕ) :
    Leads any (forwardMetadata addr) h fun _ h' => Redirected p.objs h h' := by
  rw [forwardMetadata]
  simp only [leads_bind, leads_get]
  split
  case h_1 s hfound =>
    split
    case isTrue =>
      refine forward_leads hp hany hs ((hs.isInSpace_iff hp).1 ?_)
      cases hof : h.spaceOf? addr with
      | none => rw [hof] at hfound; cases hfound
      | some i => rw [isInSpace, hof]; rfl
    case isFalse => exact leads_pure.2 (.refl _ _)
  case h_2 => exact leads_pure.2 (.refl _ _)

/-- Whatever an object holds, updating it changes no more of the tables than block offsets. -/
theorem updateContents_leads (hs : p.Serves h) (addr : ℕ) :
    Leads any (updateContents addr) h fun _ h' => Redirected p.objs h h' := by
  rw [updateContents]
  simp only [leads_bind, leads_modify, leads_get, leads_check]
  have hr₀ : Redirected p.objs h { h with updates := (addr, h.image) :: h.updates } :=
    ⟨rfl, rfl, rfl, rfl, .refl _ _⟩
  refine ⟨fun slots _ => ?_, fun fault _ => hany fault⟩
  refine (adjustSlots_leads hp hany (hr₀.serves hs) slots).mono fun _ h₁ hr => ?_
  have hr₁ := hr₀.trans hr
  split
  case h_1 => exact leads_pure.2 hr₁
  case h_2 slot _ =>
    simp only [leads_bind, leads_check]
    refine ⟨fun metadata _ => ?_, fun fault _ => hany fault⟩
    split
    case isTrue =>
      simp only [leads_bind]
      refine (forwardMetadata_leads hp hany (hr₁.serves hs) metadata).mono fun target h₂ hr₂ => ?_
      have hr₃ := hr₁.trans hr₂
      simp only [leads_check, onImage, leads_bind, leads_get, leads_set]
      refine ⟨fun cell _ => ⟨fun image _ => ?_, fun fault _ => hany fault⟩,
        fun fault _ => hany fault⟩
      exact ⟨hr₃.covered, hr₃.geometry, hr₃.bitmap, hr₃.spaces, hr₃.refilled⟩
    case isFalse => exact leads_pure.2 hr₁

omit hp [ObjectModel μ] in
/-- Whatever is recorded in a start table, the space stays where it is. -/
lemma recordStart_leads (hs : p.Serves h) (i addr : ℕ) :
    Leads any (onSpace i (·.recordStart addr)) h fun _ h' => p.Serves h' ∧ h'.table = h.table := by
  simp only [onSpace, leads_bind, leads_get, leads_check, leads_set]
  refine ⟨fun s hspace => ⟨fun s' hs' => ⟨?_, rfl⟩, fun fault _ => hany fault⟩,
    fun fault _ => hany fault⟩
  have hfound : h.spaces[i]? = some s := by
    rw [space] at hspace
    split at hspace
    case h_1 s' hfound =>
      cases hspace
      exact hfound
    case h_2 => cases hspace
  obtain ⟨starts, hrecord, heq⟩ := bind_eq_ok_iff.1 hs'
  cases heq
  obtain ⟨z, hz, _⟩ := hs.exists_zone hfound
  refine hs.setSpace hz hfound ?_
  obtain ⟨card, _, heq⟩ := bind_eq_ok_iff.1 hrecord
  cases heq
  rfl

omit hp in
/-- Whatever a gap is filled with, the tables keep the plan. -/
lemma fillGap_leads (hs : p.Serves h) (i : ℕ) (gap : Run) :
    Leads any (fillGap i gap) h fun _ h' => p.Serves h' ∧ h'.table = h.table := by
  have hrecord : ∀ tries addr (h₁ : Heap μ), p.Serves h₁ ∧ h₁.table = h.table →
      Leads any (recordFillers i gap.stop tries addr) h₁ fun _ h' =>
        p.Serves h' ∧ h'.table = h.table := by
    intro tries
    induction tries with
    | zero => exact fun addr h₁ hs₁ => leads_pure.2 hs₁
    | succ tries ih =>
      intro addr h₁ hs₁
      rw [recordFillers]
      split
      case isTrue =>
        simp only [leads_bind, leads_get]
        exact (recordStart_leads hany hs₁.1 i addr).mono fun _ h₂ hs₂ =>
          ih _ h₂ ⟨hs₂.1, hs₂.2.trans hs₁.2⟩
      case isFalse => exact leads_pure.2 hs₁
  rw [fillGap]
  simp only [onImage, leads_bind, leads_get, leads_set, leads_check]
  refine ⟨fun image _ => hrecord _ _ _ ⟨?_, rfl⟩, fun fault _ => hany fault⟩
  exact hs.advance (.refl _ _) rfl rfl rfl hs.spaces

end Heap

namespace Plan

/-- The fault occurs while the host updates an object at its new place, or fills a hole. -/
def HostFault (μ : Type) [ObjectModel μ] (p : Plan) (fault : Fault) : Prop :=
  (∃ o ∈ p.objs, ∃ h : Heap μ,
    p.Serves h ∧ Heap.updateContents (p.covered.addr (p.forward o.start)) h = .error fault)
    ∨ ∃ i o, p.Hole o ∧ ∃ h : Heap μ, p.Serves h ∧ Heap.fillGap i (o.run p.covered) h = .error fault

/-- Whatever the host does, the tables keep the plan. -/
def hostUpkeep (μ : Type) [ObjectModel μ] (hp : p.Valid) : Upkeep μ p where
  may := p.HostFault μ
  Holds _ := p.Serves
  serves hs := hs
  withTable _ hs := hs
  withLog {_ _ log} hs := hs.withLog log
  widen hs _ _ _ := hs
  copyWords {g h f s d n filled} hs hsource hdestination _ _ _ _ _ _ _ := by
    rw [Heap.copyWords]
    by_cases hsame : f.source = f.destination
    · rw [if_pos hsame]
      rw [hsource, hdestination, Extent.addr_inj] at hsame
      rw [if_pos hsame]
      exact ⟨hs, rfl, rfl⟩
    · rw [if_neg hsame]
      rw [hsource, hdestination, Extent.addr_inj] at hsame
      rw [if_neg hsame]
      exact ⟨hs.advance (.refl _ _) rfl rfl rfl hs.spaces, rfl, rfl⟩
  recordStart {g h i x z} hs hz hhas hstart := by
    obtain ⟨s, hspace, hmatches⟩ := hs.exists_space hz
    obtain ⟨starts, heq, hcovered, _⟩ := hmatches.toOver.recordStart_eq hhas.1 hhas.2
    exact ((Heap.runs_onSpace hspace heq).2 ⟨hs.setSpace hz hspace hcovered, rfl⟩).leads
  updateObject {g h o} hs ho _ _ := by
    have hlead : Heap.Leads
        (fun _ => True) (Heap.updateContents (p.covered.addr (p.forward o.start))) h fun _ h' =>
      Heap.Redirected p.objs h h' := Heap.updateContents_leads hp (fun _ => trivial) hs _
    unfold Heap.Leads at hlead ⊢
    split at hlead
    case h_1 => exact ⟨hlead.serves hs, hlead.refilled⟩
    case h_2 fault heq => exact Or.inl ⟨o, ho, h, hs, heq⟩

lemma hostUpkeep_closesHoles (μ : Type) [ObjectModel μ] (hp : p.Valid) :
    (p.hostUpkeep μ hp).ClosesHoles where
  closeHole {g h i z o} hs hz hole := by
    have hlead : Heap.Leads (fun _ => True) (Heap.fillGap i (o.run p.covered)) h fun _ h' =>
      p.Serves h' ∧ h'.table = h.table := Heap.fillGap_leads (fun _ => trivial) hs i _
    unfold Heap.Leads at hlead ⊢
    split at hlead
    case h_1 => exact hlead
    case h_2 fault heq => exact Or.inr ⟨i, o, ⟨z, List.mem_of_getElem? hz, hole⟩, h, hs, heq⟩

end Plan

end MarkCompact
