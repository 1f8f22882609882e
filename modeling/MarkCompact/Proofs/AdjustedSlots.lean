import MarkCompact.Proofs.AnyPrefixes
import MarkCompact.Proofs.Roots

/-!
# Adjusting slots of either kind

References are forwarded as addresses, and slots hold them wide or narrow.  What a narrow slot can
hold is enough for whatever its reference is redirected to: forwarding keeps addresses aligned and
never raises them, and the first word of the heap is not held as zero.

Main statement: `Heap.adjustCell_redirects`.
-/

namespace MarkCompact

/-- Slots that hold references in the same way. -/
inductive Cell.SameKind : Cell → Cell → Prop
  | wide (a a' : ℕ) : SameKind (.wide a) (.wide a')
  | narrow (c : Codec) (x x' : ℕ) : SameKind (.narrow c x) (.narrow c x')

lemma Place.sameKind_cell (b : Place) (c : Codec) (x x' : ℕ) :
    (b.cell c x).SameKind (b.cell c x') := by
  cases b with
  | word i => exact .wide x x'
  | half j => exact .narrow c x x'

lemma Codec.ofHeap_eq {start : ℕ} (hbase : bytesPerWord ≤ start) :
    Codec.ofHeap start = .ok ⟨start - bytesPerWord, 3⟩ := by
  rw [ofHeap, Word.sub_eq hbase]
  rfl

namespace Heap

variable {μ : Type} {h h₀ : Heap μ} {p : Plan} {cell : Cell} {b : Place} {a x : ℕ}

/-- A slot of the heap is wide, or narrow with the codec of the heap, and what it holds stands for a
machine address. -/
inductive IsSlot (h : Heap μ) : Cell → Prop
  | wide {a : ℕ} (ha : a < wordValues) : h.IsSlot (.wide a)
  | narrow {c : Codec} {x : ℕ} (hc : Codec.ofHeap h.covered.start = .ok c) (hx : x < narrowValues)
      (ha : c.base + x * 2 ^ c.shift < wordValues) : h.IsSlot (.narrow c x)

/-- A slot may refer to nothing, out of the spaces, or to a live word. -/
def MayRefer (h : Heap μ) (a : ℕ) : Prop :=
  a = 0 ∨ h.isInSpace a = false ∨ bytesPerWord ∣ a ∧ h.isLiveWord a = .ok true

/-- The slot may be adjusted. -/
structure MayAdjust (h : Heap μ) (cell : Cell) : Prop where
  isSlot : h.IsSlot cell
  refers : ∀ a, cell.load = .ok a → h.MayRefer a

/-- A slot that referred to `a` is adjusted: it refers to where the heap forwards `a` to if that
lies in a space, and stays as it was otherwise. -/
structure Adjusts (h : Heap μ) (cell : Cell) (a : ℕ) (out : Adjusted × Cell) : Prop where
  load_eq : cell.load = .ok a
  isSlot : h.IsSlot out.2
  sameKind : cell.SameKind out.2
  inside : h.isInSpace a = true → out.1 = .forwarded ∧ Runs (forward a) h fun target _ =>
    out.2.load = .ok target
  outside : h.isInSpace a = false → out = (.untouched, cell)
  not_null : a ≠ 0 → out.2.load ≠ .ok 0

/-- Slots of both kinds are places that hold something. -/
lemma IsSlot.exists_place (hslot : h.IsSlot cell) (hbase : bytesPerWord ≤ h.covered.start) :
    ∃ (b : Place) (x : ℕ), cell = b.cell ⟨h.covered.start - bytesPerWord, 3⟩ x ∧ x < b.values
      ∧ b.load h.covered x < wordValues := by
  cases hslot with
  | @wide a ha => exact ⟨.word 0, a, rfl, ha, ha⟩
  | @narrow c x hc hx ha =>
    rw [Codec.ofHeap_eq hbase, Except.ok.injEq] at hc
    subst hc
    refine ⟨.half 0, x, rfl, hx, ?_⟩
    rw [Place.load]
    split
    · decide
    · rwa [Nat.mul_comm]

/-- What a place can hold, slots of its kind can hold. -/
lemma isSlot_cell (hbase : bytesPerWord ≤ h.covered.start) (hstart : h.covered.start < wordValues)
    (hx : x < b.values) (hlt : b.load h.covered x < wordValues) :
    h.IsSlot (b.cell ⟨h.covered.start - bytesPerWord, 3⟩ x) := by
  cases b with
  | word i => exact .wide hx
  | half j =>
    refine .narrow (Codec.ofHeap_eq hbase) hx ?_
    rw [Place.load] at hlt
    show h.covered.start - bytesPerWord + x * 8 < wordValues
    split at hlt <;> omega

/-- A live word that a slot refers to is known to the plan. -/
lemma MayRefer.known (hrefer : h.MayRefer a) (hs : p.Serves h) (hp : p.Valid)
    (hbase : bytesPerWord ≤ p.covered.start) (haligned : bytesPerWord ∣ p.covered.start) :
    p.Known a := by
  intro hin
  rcases hrefer with rfl | hout | ⟨hword, hlive⟩
  · exact absurd rfl (InZones.ne_zero hin (lt_of_lt_of_le (by decide) hbase))
  · exact absurd ((hs.isInSpace_iff hp).2 hin) (by simp [hout])
  · obtain ⟨heq, hlt⟩ := hin.eq_byte hp
    -- The address and the range are aligned, so this is the first byte of its word.
    have hbyte : (a - p.covered.start) % bytesPerWord = 0 :=
      Nat.mod_eq_zero_of_dvd (Nat.dvd_sub hword haligned)
    rw [hbyte, Nat.add_zero] at heq
    rw [heq, isLiveWord_eq hs hp hlt, Except.ok.injEq, decide_eq_true_iff] at hlive
    exact ⟨_, heq, hlive⟩

/-- What the plan redirects a slot to is what the heap forwards it to. -/
lemma adjusts_of_serves (hp : p.Valid) (hbase : bytesPerWord ≤ p.covered.start) (hs : p.Serves h)
    (hx : x < b.values) (href : p.Refers b x) :
    h.Adjusts (b.cell ⟨p.covered.start - bytesPerWord, 3⟩ x) (b.load p.covered x)
      (if p.InSpace (b.load p.covered x) then .forwarded else .untouched,
        b.cell ⟨p.covered.start - bytesPerWord, 3⟩ (p.redirectAt b x)) := by
  have hload := href.load_redirectAt hbase
  have hfits := href.redirectAt_lt hp hbase hx
  have hredirected : b.load p.covered (p.redirectAt b x) < wordValues :=
    hload ▸ lt_of_le_of_lt (Plan.Known.redirect_le href.known hp) href.load_lt
  have hcell := Place.load_cell (b := b) (e := p.covered) rfl hredirected
  rw [hload] at hcell
  constructor
  case load_eq => exact Place.load_cell rfl href.load_lt
  case isSlot =>
    have hstart := hs.loaded.laid.covered_lt
    rw [hs.loaded.covered] at hstart
    rw [← hs.covered] at hbase hstart hredirected ⊢
    exact isSlot_cell hbase (lt_of_le_of_lt (Nat.le_add_right _ _) hstart) hfits hredirected
  case sameKind => exact b.sameKind_cell _ _ _
  case inside =>
    intro hspace
    have hin := (hs.isInSpace_iff hp).1 hspace
    refine ⟨if_pos hin, ?_⟩
    obtain ⟨w, heq, hw⟩ := href.known hin
    rw [hcell, heq, Plan.redirect_addr (heq ▸ hin)]
    refine (forward_runs hp hs hw).mono fun target _ hforward => ?_
    rw [hforward.1]
  case outside =>
    intro hspace
    have hin : ¬p.InSpace (b.load p.covered x) := fun hin => by
      simp [(hs.isInSpace_iff hp).2 hin] at hspace
    rw [if_neg hin, Plan.redirectAt_of_not_inSpace hin]
  case not_null =>
    intro hne
    show (b.cell _ _).load ≠ _
    rw [hcell, Ne, Except.ok.injEq]
    by_cases hin : p.InSpace (b.load p.covered x)
    · obtain ⟨w, heq, hw⟩ := href.known hin
      rw [heq, Plan.redirect_addr (heq ▸ hin), Extent.addr_eq]
      rw [bytesPerWord] at hbase
      omega
    · rwa [Plan.redirect_of_not_inSpace hin]

/-- A slot is adjusted in a heap whose tables hold the plan of `h₀`, whatever block offsets have
been recorded since. -/
lemma adjustCell_redirects_of_serves (hp : p.Valid) (hbase : bytesPerWord ≤ p.covered.start)
    (haligned : bytesPerWord ∣ p.covered.start) (hs₀ : p.Serves h₀) (hs : p.Serves h)
    (hcell : h₀.MayAdjust cell) (traversal : Traversal) :
    Runs (adjustCell traversal cell) h fun out h' => (∃ a, h₀.Adjusts cell a out)
      ∧ p.Serves h' := by
  obtain ⟨b, x, rfl, hx, hlt⟩ := hcell.isSlot.exists_place (hs₀.covered ▸ hbase)
  rw [hs₀.covered] at hcell hlt ⊢
  have hload := Place.load_cell (e := p.covered) rfl hlt
  have href : p.Refers b x := ⟨hlt, (hcell.refers _ hload).known hs₀ hp hbase haligned⟩
  have hsurvives : p.InSpace (b.load p.covered x) → h.isLiveWord (b.load p.covered x) = .ok true :=
    fun hin => by
    obtain ⟨w, heq, hw⟩ := href.known hin
    rw [heq, isLiveWord_eq hs hp (hs.bitmap_covered ▸ hs.consistent.marks.live_lt hw),
      decide_eq_true hw]
  refine (adjustCell_runs hp hbase hs (fun _ => hsurvives) rfl hx href).mono fun out h' => ?_
  rintro ⟨rfl, t, rfl, hrefilled⟩
  exact ⟨⟨_, adjusts_of_serves hp hbase hs₀ hx href⟩,
    hs.advance hrefilled.advances rfl rfl rfl hs.spaces⟩

variable [ObjectModel μ] {objs : List Span} {zones : List Zone} {minimum : ℕ}
  {rule : ℕ → PrefixRule}

/-- In a planned heap, slots of either kind are adjusted one after the other, in any traversals.
Each is redirected as if it were the only one. -/
theorem adjustCell_redirects (hm : h.Unplanned objs zones) (hcloses : ClosesGaps μ minimum)
    (hrule : ∀ i s, h.spaces[i]? = some s → (rule i).FitsIn h.table s)
    (hbase : bytesPerWord ≤ h.covered.start) (haligned : bytesPerWord ∣ h.covered.start) :
    Leads (fun _ => ∃ z ∈ zones, z.Misfit h.table.geometry.regionWords minimum objs)
      (planSpacesBy rule) h fun _ h' =>
      ∀ slots : List (Traversal × Cell), (∀ slot ∈ slots, h'.MayAdjust slot.2) →
        Runs (slots.mapM fun slot => adjustCell slot.1 slot.2) h' fun outs _ =>
          List.Forall₂ (fun slot out => ∃ a, h'.Adjusts slot.2 a out) slots outs := by
  refine (hm.planSpacesBy_unbegun hcloses hrule).mono fun _ h' => ?_
  rintro ⟨p, hcovered, _, hp, hu⟩ slots hslots
  rw [← hcovered] at hbase haligned
  exact (runs_mapM p.Serves _ hu.serves fun slot hmem _ hs =>
    adjustCell_redirects_of_serves hp hbase haligned hu.serves hs (hslots slot hmem) slot.1).mono
      fun _ _ => And.left

/-- A narrow slot with a reference to an object that moves. -/
theorem adjustCell_redirects_fourRegions : ∃ m, (do
      let (_, m) ← fourRegions.bitmap.mark (fourRegions.covered.addr 1) 3
      let (_, m) ← m.mark (fourRegions.covered.addr 10) 2
      pure m) = .ok m
    ∧ ({ fourRegions with bitmap := m } : Heap MemoryImage).Unplanned [⟨10, 2⟩, ⟨1, 3⟩]
      [⟨0, 0, 4, 14⟩]
    ∧ (∀ (i : ℕ) (s : Space), fourRegions.spaces[i]? = some s →
      (PrefixRule.endingAt 128).FitsIn fourRegions.table s)
    ∧ bytesPerWord ≤ 64 ∧ bytesPerWord ∣ 64
    ∧ Runs (planSpacesBy fun _ => .endingAt 128) { fourRegions with bitmap := m } fun _ h' =>
      h'.MayAdjust (.narrow ⟨56, 3⟩ 11)
        ∧ Runs ([(.heap, .narrow ⟨56, 3⟩ 11)].mapM fun slot => adjustCell slot.1 slot.2) h'
          fun outs _ =>
          List.Forall₂ (fun slot out => ∃ a, h'.Adjusts slot.2 a out)
            [((.heap, .narrow ⟨56, 3⟩ 11) : Traversal × Cell)] outs := by
  obtain ⟨m, heq, hmarked⟩ := fourRegions_marked
  have hleads : Leads _ (planSpacesBy fun _ => .endingAt 128) _ _ :=
    adjustCell_redirects hmarked.unplanned
    MemoryImage.closesGaps fourRegions_fitsIn (show bytesPerWord ≤ 64 by decide)
      (show bytesPerWord ∣ 64 by decide)
  have hplan : Leads _ (planSpacesBy fun _ => .endingAt 128) _ _ :=
    hmarked.unplanned.planSpacesBy_unbegun MemoryImage.closesGaps fourRegions_fitsIn
  refine ⟨m, heq, hmarked.unplanned, fourRegions_fitsIn, by decide, by decide,
    ((hleads.and hplan).runs fun _ => (fillersFit_one _ _ _).not_misfit).mono fun _ h' => ?_⟩
  rintro ⟨hadjusts, p, hcovered, hobjs, hp, hu⟩
  have hcovered' : h'.covered = ⟨64, 128⟩ := hu.serves.covered.trans hcovered
  have hadjust : h'.MayAdjust (.narrow ⟨56, 3⟩ 11) := by
    refine ⟨.narrow (by rw [hcovered']; rfl) (by decide) (by decide), fun a ha => .inr (.inr ?_)⟩
    obtain rfl : 144 = a := by simpa using (show Except.ok 144 = Except.ok a from ha)
    have hlive : Live p.objs 10 := live_of_mem (hobjs List.mem_cons_self) ⟨le_rfl, by decide⟩
    have hword :=
      isLiveWord_eq hu.serves hp
        (hu.serves.bitmap_covered ▸ hu.serves.consistent.marks.live_lt hlive)
    rw [decide_eq_true hlive, hcovered] at hword
    exact ⟨by decide, hword⟩
  exact ⟨hadjust, hadjusts _ fun slot hslot => by rw [List.mem_singleton.1 hslot]; exact hadjust⟩

end Heap

end MarkCompact
