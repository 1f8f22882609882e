import MarkCompact.Proofs.Boundaries
import MarkCompact.Proofs.Measures

/-!
# A dense prefix that ends with an object

If dead space crosses the end of a dense prefix, one filler is marked there and accounted like any
other object.  So the bitmap and the sizes of the regions agree afterwards as they did before, and
every mark but that of the filler is as it was.

Main statement: `fillPrefixEnd_exact`.
-/

namespace MarkCompact

variable {objs : List Span} {o : Span} {W : ℕ} {z : Zone}

namespace Heap

variable {μ : Type} [ObjectModel μ] {h h' : Heap μ} {s : Space} {i : ℕ}

/-- What the heap `h'` holds after the dead space across the end of the dense prefix of the zone has
been filled with `o`. -/
structure PrefixEndFilled (h h' : Heap μ) (objs : List Span) (z : Zone) (o : Span) : Prop where
  follows : o.start = z.first * h.table.geometry.regionWords ∨ ∃ o' ∈ objs, o'.past = o.start
  bottom_le : z.first * h.table.geometry.regionWords ≤ o.start
  start_lt : o.start < z.keep * h.table.geometry.regionWords
  reaches : z.keep * h.table.geometry.regionWords ≤ o.past
  past_le : o.past ≤ z.top
  dead : Dead objs o.start o.past
  beyond : z.keep * h.table.geometry.regionWords < o.past →
    z.keep * h.table.geometry.regionWords - o.start < ObjectModel.minimumWords h.image
  minimum_le : ObjectModel.minimumWords h.image ≤ o.words
  marks : h'.bitmap.Marks (o :: objs)
  begins_iff : ∀ b, h'.bitmap.begins.mem b ↔ b = o.start ∨ h.bitmap.begins.mem b
  ends_iff : ∀ b, h'.bitmap.ends.mem b ↔ b + 1 = o.past ∨ h.bitmap.ends.mem b
  begins_new : ¬h.bitmap.begins.mem o.start
  measures : ∀ r, (h.table.regions.get r).Measures objs h.table.geometry.regionWords r →
    (h'.table.regions.get r).Measures (o :: objs) h.table.geometry.regionWords r
  closed : ¬CrossedByDead (o :: objs) (z.keep * h.table.geometry.regionWords)

/-- A filler that has been added is the one new mark, and the regions account for it. -/
lemma FillerAdded.prefixEndFilled (hadded : h.FillerAdded h' i s objs o) (hc : h.Consistent objs)
    (hfiller : Filler objs (z.first * h.table.geometry.regionWords)
      (z.keep * h.table.geometry.regionWords) z.top
      (ObjectModel.minimumWords h.image) o) : h.PrefixEndFilled h' objs z o := by
  have hW := h.table.geometry.regionWords_pos
  have hmarks := hadded.consistent.marks
  have hsep := hmarks.separate
  have hlow := hfiller.start_lt
  have hhigh := hfiller.boundary_le
  exact
    { follows := hfiller.follows
      bottom_le := hfiller.bottom_le
      start_lt := hfiller.start_lt
      reaches := hfiller.boundary_le
      past_le := hfiller.past_le
      dead := hfiller.dead
      beyond := fun hlt => by
        have hleast := hfiller.least hlt
        simp only [Span.past] at hlt
        omega
      minimum_le := hfiller.minimum_le
      marks := hmarks
      begins_iff := fun b => by
        rw [hmarks.mem_begins, hc.marks.mem_begins, Starts, Starts,
          List.exists_mem_cons_iff, eq_comm]
      ends_iff := fun b => by
        rw [hmarks.mem_ends, hc.marks.mem_ends, List.exists_mem_cons_iff, eq_comm]
      begins_new := fun hmem => by
        obtain ⟨o', ho', heq⟩ := (hc.marks.mem_begins _).1 hmem
        have hpos := hc.marks.separate.start_lt_past ho'
        exact hfiller.dead o.start (le_refl _) (by omega) ⟨o', ho', heq.le, by omega⟩
      measures := fun r hmeasures => by
        have haccounts := (Region.measures_iff_accounts hc.marks.separate hW).1 hmeasures
        rw [Region.measures_iff_accounts hsep hW, hadded.regions r]
        exact haccounts.account _ hsep hW hc.laid.regionWords_lt
      closed := fun hcross => hcross.1 (live_of_mem List.mem_cons_self ⟨by omega, by omega⟩) }

/-- Filling the end of a dense prefix, in a space whose marked objects are accounted, changes
nothing unless dead space crosses the end.  Otherwise it marks one object in that dead space, which
the regions of the space account for too. -/
theorem fillPrefixEnd_exact (hc : h.Consistent objs) (hspace : h.spaces[i]? = some s)
    (hs : s.Over h.table.covered h.table.geometry.regionWords z)
    (hdense : s.densePrefix = h.table.covered.addr (z.keep * h.table.geometry.regionWords))
    (hz : z.Ordered h.table.geometry.regionWords h.table.covered.words)
    (hfirst : z.first < z.keep) (htop : z.keep * h.table.geometry.regionWords < z.top)
    (hmeasures : ∀ r, z.first ≤ r → r < z.last →
      (h.table.regions.get r).Measures objs h.table.geometry.regionWords r)
    (hfits : FillerFits objs (z.first * h.table.geometry.regionWords)
      (z.keep * h.table.geometry.regionWords) z.top
      (ObjectModel.minimumWords h.image))
    (hfill : ∀ addr words, ObjectModel.minimumWords h.image ≤ words → 0 < words →
      ∃ image, ObjectModel.fillDead h.image addr words = .ok image) :
    Runs (fillPrefixEnd i) h fun _ h' =>
      (¬CrossedByDead objs (z.keep * h.table.geometry.regionWords) → h' = h)
      ∧ (CrossedByDead objs (z.keep * h.table.geometry.regionWords) →
        ∃ o, h.PrefixEndFilled h' objs z o) := by
  have haccounts := fun r h1 h2 =>
    (Region.measures_iff_accounts hc.marks.separate h.table.geometry.regionWords_pos).1
    (hmeasures r h1 h2)
  refine (fillPrefixEnd_runs hc hspace hs hdense hz hfirst htop haccounts hfits hfill).mono
    fun _ h' => ?_
  rintro (⟨rfl, hnot⟩ | ⟨o, hcross, hfiller, hadded⟩)
  · exact ⟨fun _ => rfl, fun hcross => absurd hcross hnot⟩
  · exact ⟨fun hnot => absurd hcross hnot, fun _ => ⟨o, hadded.prefixEndFilled hc hfiller⟩⟩

/-- The heap of four regions, of which the first two are to be kept. -/
def keptRegions : Heap MemoryImage :=
  { fourRegions with spaces := fourRegions.spaces.map fun s => { s with
    densePrefix := 64 + 8 * 8 } }

/-- Two objects, with dead space across the boundary between them from the end of the first one
on. -/
theorem fillPrefixEnd_exact_keptRegions :
    CrossedByDead [⟨10, 2⟩, ⟨1, 3⟩] 8 ∧ Runs (do
        [(⟨1, 3⟩ : Span), ⟨10, 2⟩].forM fun o =>
          do let _ ← addObject (keptRegions.table.covered.addr o.start) o.words
        fillPrefixEnd 0) keptRegions fun _ h' =>
      ∃ o : Span, h'.bitmap.Marks [o, ⟨10, 2⟩, ⟨1, 3⟩] ∧ o.start < 8 ∧ 8 ≤ o.past
        ∧ ∀ r, (h'.table.regions.get r).Measures [o, ⟨10, 2⟩, ⟨1, 3⟩] 4 r := by
  have hsep : Separate [⟨10, 2⟩, ⟨1, 3⟩] := ⟨by decide, by simp [Span.Apart, Span.past]⟩
  have hlaid : keptRegions.table.Laid :=
    RegionTable.laid_empty (by decide) (by decide) (by decide) (by decide)
  have hblank : ∀ r, (keptRegions.table.regions.get r).Accounts [] 4 r := fun r => by
    rw [show keptRegions.table.regions.get r = {} from Table.get_fresh ..]
    exact Region.accounts_nil 4 r
  have hc : keptRegions.Consistent [] :=
    ⟨hlaid, MarkBitmap.marks_unmarked (by decide), rfl, rfl, rfl⟩
  have hadd : Runs _ keptRegions fun _ h₁ => keptRegions.ObjectsAdded h₁ [] [⟨1, 3⟩, ⟨10, 2⟩] :=
    addObjects_runs hc hsep (by decide) fun o _ => hblank _
  have hcross : CrossedByDead [⟨10, 2⟩, ⟨1, 3⟩] 8 := by
    rw [CrossedByDead]
    decide
  refine ⟨hcross, hadd.bind fun _ h₁ hadded => ?_⟩
  have hgeometry : h₁.table.geometry = keptRegions.table.geometry := hadded.shape.geometry
  have hcovered : h₁.table.covered = keptRegions.table.covered := hadded.shape.covered
  have hmeasures : ∀ r, (h₁.table.regions.get r).Measures [⟨10, 2⟩, ⟨1, 3⟩] 4 r := fun r => by
    rw [Region.measures_iff_accounts hsep (by decide), hadded.regions r]
    have hall := (hblank r).accountAll (e := keptRegions.table.covered)
      (show Separate ([⟨1, 3⟩, ⟨10, 2⟩].reverse ++ []) from hsep) (by decide) hlaid.regionWords_lt
    exact hall.1
  have hfilled :=
    fillPrefixEnd_exact (z := ⟨0, 2, 4, 14⟩) (i := 0) hadded.consistent (by rw [hadded.spaces]; rfl)
    (by rw [hcovered, hgeometry]; exact ⟨rfl, rfl, rfl, rfl, by decide, by decide⟩)
      (by rw [hcovered, hgeometry]; rfl)
    (by rw [hcovered, hgeometry]; exact ⟨by decide, by decide, by decide, by decide, by decide⟩)
      (by decide)
    (by rw [hgeometry]; decide) (fun r _ _ => by rw [hgeometry]; exact hmeasures r)
    (by rw [hgeometry]; exact fun _ => fillerFits_one (by decide) (by decide) hcross)
    (fun addr words _ hpos => ⟨_, by
      simp only [ObjectModel.fillDead, MemoryImage.fillDead, if_neg (Nat.ne_of_gt hpos)]
      rfl⟩)
  refine hfilled.mono fun _ h' hended => ?_
  rw [hgeometry] at hended
  obtain ⟨o, hend⟩ := hended.2 hcross
  have hlow := hend.start_lt
  have hhigh := hend.reaches
  have hall := hend.measures
  rw [hgeometry] at hlow hhigh hall
  exact ⟨o, hend.marks, hlow, hhigh, fun r => hall r (hmeasures r)⟩

end Heap

end MarkCompact
