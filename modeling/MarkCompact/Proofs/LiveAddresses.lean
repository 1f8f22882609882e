import MarkCompact.Proofs.Creating
import MarkCompact.Proofs.LiveWords
import MarkCompact.Proofs.PlannedHeaps

/-!
# Which addresses are live

In a heap whose spaces were accepted, an address of the covered range is live exactly if it lies
within the words of a marked object.  It need not be that of a word, nor lie in a space.

Main statements: `Heap.create_houses` (marked objects in the spaces of a new heap) and
`Heap.isLiveWord_exact`.
-/

namespace MarkCompact

namespace Heap

variable {μ : Type} {h : Heap μ} {objs : List Span} {e : Extent} {g : Geometry}
  {settings : Settings} {configs : List SpaceConfig} {c : SpaceConfig} {m : MarkBitmap} {image : μ}
  {a previousEnd : ℕ}

/-- The bounds of a space that fits are those of words. -/
lemma words_of_fits (hfits : c.Fits e g previousEnd) (hlimit : g.regionWords < liveLimit) :
    ∃ x y, y ≤ e.words ∧ c.bottom = e.addr x ∧ c.limit = e.addr y := by
  have hstart := hfits.start_le
  have hlt := hfits.bottom_lt
  have hle := hfits.limit_le
  have hbytes : ∀ n, g.regionBytes ∣ n → ∃ x, n = 8 * x := fun n hn =>
    dvd_trans (Dvd.intro_left g.regionWords rfl : bytesPerWord ∣ g.regionBytes) hn
  obtain ⟨x, hx⟩ := hbytes _ ((g.isAligned_region_iff hlimit).1 hfits.bottom_aligned)
  obtain ⟨y, hy⟩ := hbytes _ ((g.isAligned_region_iff hlimit).1 hfits.limit_aligned)
  refine ⟨x, y, ?_, ?_, ?_⟩
  · rw [Extent.words, bytesPerWord]
    omega
  · rw [Extent.addr_eq]
    omega
  · rw [Extent.addr_eq]
    omega

/-- Objects that are marked in the spaces of a new heap are housed there. -/
theorem create_houses (hgeometry : Geometry.ofSettings settings e.size = .ok g)
    (hcreate : create e g configs image = .ok h) (hm : m.Marks objs) (hcovered : m.covered = e)
    (hinside : ∀ o ∈ objs, ∃ c ∈ configs, c.bottom ≤ e.addr o.start ∧ e.addr o.past ≤ c.limit) :
    ({ h with bitmap := m } : Heap μ).Houses objs := by
  obtain ⟨_, hlimit, hsize⟩ := Geometry.ofSettings_eq_ok hgeometry
  obtain ⟨hne, haccepted, _, _, rfl⟩ := create_eq_ok_iff.1 hcreate
  obtain ⟨hfits, hpairwise⟩ := checkSpaces_spec haccepted
  exact {
    marks := hm
    bitmap_covered := hcovered
    stop_lt := by
      obtain ⟨c, hc⟩ := List.exists_mem_of_ne_nil configs hne
      exact (hfits c hc).stop_lt
    whole := by
      show bytesPerWord ∣ e.size
      rw [hsize, Geometry.coveredBytes, Geometry.regionBytes]
      exact Dvd.intro_left _ (Nat.mul_assoc ..)
    bounds := fun s hs => by
      obtain ⟨c, hc, rfl⟩ := List.mem_map.1 hs
      exact words_of_fits (hfits c hc) hlimit
    apart := List.pairwise_map.2 (hpairwise.imp Or.inl)
    inside := fun o ho => by
      obtain ⟨c, hc, hle⟩ := hinside o ho
      exact ⟨_, List.mem_map_of_mem hc, hle⟩ }

/-- Whether an address of the covered range is live never faults, and the answer is whether it lies
within the words of a marked object. -/
theorem isLiveWord_exact (hh : h.Houses objs) (h1 : h.covered.start ≤ a)
    (h2 : a < h.covered.start + h.covered.size) :
    ∃ live, h.isLiveWord a = .ok live
      ∧ (live = true ↔ ∃ o ∈ objs, h.covered.addr o.start ≤ a ∧ a < h.covered.addr o.past) := by
  have hsize := hh.size_words
  obtain ⟨w, b, hw, hb, rfl⟩ : ∃ w b, w < h.covered.words ∧ b < 8 ∧ a = h.covered.addr w + b :=
    ⟨(a - h.covered.start) / 8, (a - h.covered.start) % 8, by omega, Nat.mod_lt _ (by decide),
      by rw [Extent.addr_eq]; omega⟩
  refine ⟨_, hh.isLiveWord_byte hw hb, ?_⟩
  rw [decide_eq_true_iff]
  simp only [Live, Span.Covers, Extent.addr_le_byte hb, Extent.byte_lt_addr hb]

/-- A heap of two spaces with a region between them, in which nothing is marked. -/
def gappedSpaces : Heap MemoryImage :=
  { fourRegions with spaces := [.ofConfig (.old "young" 64 96), .ofConfig (.old "old" 128 192)] }

/-- One object ends with its space, and the gap behind it is dead. -/
theorem isLiveWord_exact_gappedSpaces : ∃ m, (do
      let (_, m) ← gappedSpaces.bitmap.mark (gappedSpaces.covered.addr 1) 3
      let (_, m) ← m.mark (gappedSpaces.covered.addr 10) 2
      pure m) = .ok m
    ∧ ({ gappedSpaces with bitmap := m } : Heap MemoryImage).Houses [⟨10, 2⟩, ⟨1, 3⟩]
    ∧ 64 ≤ 97 ∧ 97 < 64 + 128
    ∧ ∃ live, ({ gappedSpaces with bitmap := m } : Heap MemoryImage).isLiveWord 97 = .ok live
      ∧ (live = true ↔ ∃ o ∈ [(⟨10, 2⟩ : Span), ⟨1, 3⟩],
        gappedSpaces.covered.addr o.start ≤ 97 ∧ 97 < gappedSpaces.covered.addr o.past) := by
  obtain ⟨m, heq, hmarked⟩ := fourRegions_marked
  have hh : ({ gappedSpaces with bitmap := m } : Heap MemoryImage).Houses [⟨10, 2⟩, ⟨1, 3⟩] :=
    { marks := hmarked.consistent.marks
      bitmap_covered := hmarked.consistent.bitmap_covered
      stop_lt := show 64 + 128 < wordValues by decide
      whole := show bytesPerWord ∣ 128 by decide
      bounds := by
        intro s hs
        rcases List.mem_pair.1 hs with rfl | rfl
        · exact ⟨0, 4, show 4 ≤ gappedSpaces.covered.words by decide, rfl, rfl⟩
        · exact ⟨8, 16, show 16 ≤ gappedSpaces.covered.words by decide, rfl, rfl⟩
      apart := List.pairwise_pair.2 (.inl (by decide))
      inside := by
        simp [gappedSpaces, fourRegions, Space.ofConfig, SpaceConfig.old, Extent.addr_eq,
          Span.past] }
  exact ⟨m, heq, hh, by decide, by decide,
    isLiveWord_exact hh (show 64 ≤ 97 by decide) (show 97 < 64 + 128 by decide)⟩

end Heap

end MarkCompact
